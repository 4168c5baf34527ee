import Pipette.Lib.Window
import Pipette.Pipeline.Joins
import Pipette.Pipeline.Stages
import Pipette.System.OneEntry

/-! Teardown deletes a job and puts it back for a plan that joined meanwhile. The job it puts back
is the one it read, so nobody may move the job in between. -/
namespace Pipette

open Prog

def QueuePath.IsOf (j : JobId) (p : QueuePath) : Prop := ∃ k, p.queued = some k ∧ k.jobId = j

def QueueState.NoEntry (s : QueueState) (j : JobId) : Prop :=
  ∀ p, p.IsOf j → s.files.lookup p = none

def QueueState.OneEntryOf (s : QueueState) (j : JobId) : Prop :=
  ∀ p q, p.IsOf j → q.IsOf j → (s.files.lookup p).isSome → (s.files.lookup q).isSome → p = q

def NoNew (j : JobId) (w w' : World) : Prop :=
  ∀ p, p.IsOf j → w.queue.files.lookup p = none → w'.queue.files.lookup p = none

instance {j : JobId} : Std.Refl (NoNew j) := ⟨fun _ _ _ h => h⟩

instance {j : JobId} : IsTrans World (NoNew j) := ⟨fun _ _ _ h h' p hp hw => h' p hp (h p hp hw)⟩

def Files (j : JobId) : StoreCall → Prop
  | .queue (.rename _ dst) => dst.IsOf j
  | _ => False

def ReadsEntry (j : JobId) : StoreCall → Prop
  | .queue (.read p) => p.IsOf j
  | _ => False

section Files

variable {j : JobId} {w w' : World} {c : StoreCall}

theorem QueueState.NoEntry.noNew (h : w.queue.NoEntry j) (hw : NoNew j w w') : w'.queue.NoEntry j :=
  fun p hp => hw p hp (h p hp)

theorem QueueState.OneEntryOf.noNew (h : w.queue.OneEntryOf j) (hw : NoNew j w w') :
    w'.queue.OneEntryOf j := by
  have hthere : ∀ p, p.IsOf j → (w'.queue.files.lookup p).isSome →
      (w.queue.files.lookup p).isSome := by
    intro p hp hs
    by_contra hnone
    simp [hw p hp (by simpa using hnone)] at hs
  exact fun p q hp hq hps hqs => h p q hp hq (hthere p hp hps) (hthere q hq hqs)

theorem noNew_step (hc : ¬ Files j c) : NoNew j w (machine c w).2 := by
  intro p hp hnone
  cases c with
  | queue c =>
    cases c with
    | rename src dst =>
      simp only [machine, QueueState.step_rename]
      cases hmove : w.queue.files.rename src dst with
      | none => exact hnone
      | some files =>
        simp only [FileTree.lookup_rename hmove]
        rw [if_neg fun he : p = dst => hc (he ▸ hp), hnone]
        split <;> rfl
    | remove q =>
      simp only [machine, QueueCall.step, FileTree.lookup_remove, hnone]
      split <;> rfl
    | writeTmp j' b =>
      obtain ⟨k, hk, -⟩ := hp
      simp only [machine, QueueCall.step, FileTree.lookup_write]
      rw [if_neg fun he => by rw [he] at hk; cases hk]
      exact hnone
    | _ => exact hnone
  | _ => exact hnone

theorem noNew_faulty {r : Except Fault c.Answer} (hc : ¬ Files j c)
    (hout : machine.faulty c w r w') : NoNew j w w' := by
  obtain ⟨-, rfl⟩ | ⟨-, -, rfl | rfl⟩ := hout
  · exact noNew_step hc
  · exact refl_of (NoNew j) _
  · exact noNew_step hc

theorem rename_of_gone {src : QueuePath} (dst : QueuePath) (hsrc : w.queue.files.lookup src = none) :
    (machine (.queue (.rename src dst)) w).2 = w := by
  simp [machine, QueueState.step_rename, FileTree.rename_eq_none.mpr hsrc]

theorem QueueState.NoEntry.files (h : w.queue.NoEntry j) :
    (machine c w).2.queue.OneEntryOf j := by
  have hone : w.queue.OneEntryOf j := fun p q hp _ hps => by simp [h p hp] at hps
  by_cases hc : Files j c
  · cases c with
    | queue c =>
      cases c with
      | rename src dst =>
        cases hmove : w.queue.files.rename src dst with
        | none => simpa [machine, QueueState.step_rename, hmove] using hone
        | some files =>
          have honly : ∀ p, p.IsOf j → (files.lookup p).isSome → p = dst := by
            intro p hp hs
            by_contra hne
            rw [FileTree.lookup_rename hmove, if_neg hne, h p hp] at hs
            split at hs <;> cases hs
          intro p q hp hq hps hqs
          simp only [machine, QueueState.step_rename, hmove] at hps hqs
          rw [honly p hp hps, honly q hq hqs]
      | _ => exact hc.elim
    | _ => exact hc.elim
  · exact hone.noNew (noNew_step hc)

theorem QueueCall.KeepsJobs.oneEntryOf {c : QueueCall} {s : QueueState} (hc : c.KeepsJobs)
    (h : s.OneEntryOf j) : (c.step s).2.OneEntryOf j := by
  rintro p q ⟨k, hk, hkj⟩ ⟨k', hk', hkj'⟩ hp hq
  obtain ⟨b, hb⟩ := Option.isSome_iff_exists.mp hp
  obtain ⟨b', hb'⟩ := Option.isSome_iff_exists.mp hq
  obtain ⟨p₀, k₀, hp₀, hk₀, hpm, -⟩ := hc.origin ⟨hk, hb⟩
  obtain ⟨q₀, k₁, hq₀, hk₁, hqm, -⟩ := hc.origin ⟨hk', hb'⟩
  have hsame : p₀ = q₀ := h p₀ q₀ ⟨k₀, hp₀.1, hk₀.trans hkj⟩ ⟨k₁, hq₀.1, hk₁.trans hkj'⟩
    (by simp [hp₀.2]) (by simp [hq₀.2])
  rw [← hpm, ← hqm, hsame]

end Files

/-- From the read of the job's file to the promote that puts it back, the job gets no new entry but
by that promote, which finds none. -/
def restoreWindow (j : JobId) : Window Stores World where
  outcomes := machine.faulty
  opens := ReadsEntry j
  acts := Files j
  bears := NoNew j
  allows := fun w => w.queue.NoEntry j
  inv := fun w => w.queue.OneEntryOf j

instance {j : JobId} : (restoreWindow j).Lawful where
  refl := inferInstanceAs (Std.Refl (NoNew j))
  trans := inferInstanceAs (IsTrans World (NoNew j))
  stable := fun _ _ h hw => h.noNew hw
  keeps := by
    intro c w r w' hG hout hw
    by_cases hc : Files j c
    · obtain ⟨-, rfl⟩ | ⟨-, -, rfl | rfl⟩ := hout
      · exact (hG hc).files
      · exact hw
      · exact (hG hc).files
    · exact hw.noNew (noNew_faulty hc hout)

section Teardown

variable {j : JobId} {w : World} {α : Type}

abbrev Empties (j : JobId) (p : Op α) (w : World) : Prop :=
  p.Sat machine.faulty (NoNew j) (fun c w => Files j c → w.queue.NoEntry j)
    (fun r w => w.queue.OneEntryOf j ∧ ((∃ a, r = .ok a) → w.queue.NoEntry j)) w

theorem empties_of_calls {p : Op α} (h : p.Calls fun c => ¬ Files j c) (hw : w.queue.NoEntry j) :
    Empties j p w := by
  have hnone : p.Sat machine.faulty (NoNew j) (fun c w => Files j c → w.queue.NoEntry j)
      (fun _ w => w.queue.NoEntry j) w := by
    refine Sat.invariant (fun _ _ h hR => h.noNew hR) (fun c w hc hw => ?_) h hw
    exact ⟨fun hf => absurd hf hc, fun r w' hout => hw.noNew (noNew_faulty hc hout)⟩
  refine hnone.mono (fun _ _ h => h) fun r w hw => ⟨?_, fun _ => hw⟩
  exact fun p q hp _ hps => by simp [hw p hp] at hps

theorem remove_sat {q : QueuePath} (hq : q.IsOf j) {A : World → Prop}
    (hA : ∀ w w', A w → NoNew j w w' → A w') (hw : A w) :
    (Op.queue (.remove q)).Sat machine.faulty (NoNew j) (fun c w => Files j c → w.queue.NoEntry j)
      (fun r w => A w ∧ ((∃ a, r = .ok a) → w.queue.files.lookup q = none)) w := by
  have hno : ¬ Files j (.queue (.remove q)) := fun h => h
  refine Sat.store_any fun w' hR => ⟨fun h => absurd h hno, fun r v hout v' hR' => ⟨?_, ?_⟩⟩
  · exact hA v v' (hA w' v (hA w w' hw hR) (noNew_faulty hno hout)) hR'
  · rintro ⟨a, rfl⟩
    obtain ⟨-, rfl⟩ | ⟨e, he, -⟩ := hout
    · exact hR' q hq (by simp [machine, QueueCall.step])
    · cases he

theorem removeEach_empties {β : Type} {path : β → QueuePath} {g : Bool → Op Unit}
    (hg : ∀ a, g a = .ret () ∨ ∃ e, g a = .fail e) {xs : List β} (hof : ∀ b ∈ xs, (path b).IsOf j)
    (hone : w.queue.OneEntryOf j)
    (hin : ∀ p, p.IsOf j → (w.queue.files.lookup p).isSome → ∃ b ∈ xs, p = path b) :
    Empties j (xs.forM fun b => (Op.queue (.remove (path b))).bind g) w := by
  induction xs generalizing w with
  | nil =>
    refine empties_of_calls (.ret _) fun p hp => ?_
    by_contra hne
    obtain ⟨b, hb, -⟩ := hin p hp (Option.isSome_iff_ne_none.mpr hne)
    cases hb
  | cons b rest ih =>
    have hA : ∀ w w' : World, (w.queue.OneEntryOf j ∧
        ∀ p, p.IsOf j → (w.queue.files.lookup p).isSome → ∃ b' ∈ b :: rest, p = path b') →
        NoNew j w w' → w'.queue.OneEntryOf j ∧
        ∀ p, p.IsOf j → (w'.queue.files.lookup p).isSome → ∃ b' ∈ b :: rest, p = path b' := by
      rintro w w' ⟨h1, h2⟩ hR
      refine ⟨h1.noNew hR, fun p hp hs => h2 p hp ?_⟩
      by_contra hnone
      simp [hR p hp (by simpa using hnone)] at hs
    change Empties j (((Op.queue (.remove (path b))).bind g).bind fun _ => rest.forM _) w
    rw [bind_assoc]
    refine (remove_sat (hof b List.mem_cons_self) hA ⟨hone, hin⟩).bind (fun a v hv => ?_)
      fun e v hv v' hR => ⟨hv.1.1.noNew hR, by rintro ⟨_, h⟩; cases h⟩
    obtain ⟨⟨hone', hin'⟩, hgone⟩ := hv
    obtain hret | ⟨e, hfail⟩ := hg a
    · rw [hret]
      refine ih (fun b' hb' => hof b' (List.mem_cons_of_mem b hb')) hone' fun p hp hs => ?_
      obtain ⟨b', hb', rfl⟩ := hin' p hp hs
      obtain rfl | hb' := List.mem_cons.mp hb'
      · simp [hgone ⟨a, rfl⟩] at hs
      · exact ⟨b', hb', rfl⟩
    · rw [hfail]
      exact fun v' hR => ⟨hone'.noNew hR, by rintro ⟨_, h⟩; cases h⟩

theorem deleteAvailByJob_empties (hone : w.queue.OneEntryOf j)
    (hin : ∀ p, p.IsOf j → (w.queue.files.lookup p).isSome → ∃ d, p = .avail ⟨j, d⟩) :
    Empties j (deleteAvailByJob j) w := by
  have hlist : (Op.queue (.listAvailOf j)).Sat machine.faulty (NoNew j)
      (fun c w => Files j c → w.queue.NoEntry j)
      (fun r v => v.queue.OneEntryOf j ∧ ∀ ds, r = .ok ds → ∀ p, p.IsOf j →
        (v.queue.files.lookup p).isSome → ∃ d ∈ ds, p = .avail ⟨j, d⟩) w := by
    have hno : ¬ Files j (.queue (.listAvailOf j)) := fun h => h
    refine Sat.store_any fun w' hR => ⟨fun h => absurd h hno, fun r v hout v' hR' => ?_⟩
    refine ⟨((hone.noNew hR).noNew (noNew_faulty hno hout)).noNew hR', fun ds hds p hp hs => ?_⟩
    subst hds
    obtain ⟨hds, rfl⟩ | ⟨e, he, -⟩ := hout
    · have hthere : ∀ {w w' : World}, NoNew j w w' → (w'.queue.files.lookup p).isSome →
          (w.queue.files.lookup p).isSome := by
        intro w w' hR hs
        by_contra hnone
        simp [hR p hp (by simpa using hnone)] at hs
      have hw' : (w'.queue.files.lookup p).isSome := hthere hR' hs
      obtain ⟨d, rfl⟩ := hin p hp (hthere hR hw')
      refine ⟨d, ?_, rfl⟩
      cases hds
      have hmem : (⟨j, d⟩ : AvailKey) ∈ w'.queue.availKeys := QueueState.mem_availKeys.mpr hw'
      simpa [machine, QueueCall.step] using ⟨_, ⟨hmem, rfl⟩, rfl⟩
    · cases he
  refine hlist.bind (fun ds v hv => ?_) fun e v hv v' hR =>
    ⟨hv.1.noNew hR, by rintro ⟨_, h⟩; cases h⟩
  refine removeEach_empties (g := fun removed => if removed then pure () else Op.fail .missing)
    (fun a => ?_) (fun d _ => ⟨⟨j, d⟩, rfl, rfl⟩) hv.1 (hv.2 ds rfl)
  cases a
  · exact .inr ⟨_, rfl⟩
  · exact .inl rfl

variable {held : List Lease}

theorem forM_deleteLease_empties (hheld : ∀ l ∈ held, l.jobId = j) (hone : w.queue.OneEntryOf j)
    (hin : ∀ p, p.IsOf j → (w.queue.files.lookup p).isSome → ∃ l ∈ held, p = .leased l) :
    Empties j (held.forM deleteLease) w :=
  removeEach_empties (fun _ => .inl rfl) (fun l hl => ⟨l.availKey, rfl, hheld l hl⟩) hone hin

theorem forM_deleteLease_calls : (held.forM deleteLease).Calls fun c => ¬ Files j c :=
  .forM fun _ _ => .void (.store fun h => h)

theorem retireJob_empties {entry : Option AvailKey} {q : QueuePath}
    (hq : (∃ k, entry = some k ∧ q = .avail ⟨j, k.expiresAt⟩) ∨
      ∃ l rest, entry = none ∧ held = l :: rest ∧ q = .leased l)
    (hheld : ∀ l ∈ held, l.jobId = j) (hone : w.queue.OneEntryOf j)
    (hthere : (w.queue.files.lookup q).isSome) : Empties j (retireJob j entry.isSome held) w := by
  obtain ⟨k, rfl, rfl⟩ | ⟨l, rest, rfl, rfl, rfl⟩ := hq
  · refine (deleteAvailByJob_empties hone fun p hp hs => ?_).bind (fun _ v hv => ?_)
      fun e v hv v' hR => ⟨hv.1.noNew hR, by rintro ⟨_, h⟩; cases h⟩
    · exact ⟨k.expiresAt, hone p _ hp ⟨_, rfl, rfl⟩ hs hthere⟩
    · exact empties_of_calls forM_deleteLease_calls (hv.2 ⟨_, rfl⟩)
  · refine forM_deleteLease_empties hheld hone fun p hp hs => ⟨l, List.mem_cons_self, ?_⟩
    exact hone p _ hp ⟨_, rfl, hheld l List.mem_cons_self⟩ hs hthere

def retireOrRestore (j : JobId) (inAvail : Bool) (held : List Lease) (expiresAt : ExpiresAt)
    (body : Option Json) : Op JobFate := do
  retireJob j inAvail held
  let joiners ← Op.plans (.listJobPlanMarkers j)
  match body with
  | none =>
    Op.index (.writePendingReindexJob j)
    if joiners.isEmpty then pure .alreadyGone else pure (.released joiners.length)
  | some body =>
    if joiners.isEmpty then pure .retired
    else
      Op.queue (.writeTmp j body)
      promoteAvail ⟨j, expiresAt⟩
      Op.index (.writePendingReindexJob j)
      pure (.released joiners.length)

theorem endMembership_eq (p : PlanId) (entry : Option AvailKey) :
    endMembership p j entry held = (dropMembership p j).bind fun _ =>
      (Op.plans (.listJobPlanMarkers j)).bind fun remaining =>
        if !remaining.isEmpty then pure (.released remaining.length)
        else (bodyToRestore j entry held).bind fun r =>
          match r with
          | none => pure .retired
          | some (expiresAt, body) => retireOrRestore j entry.isSome held expiresAt body :=
  rfl

theorem promoteAvail_guards {k : AvailKey} (hw : w.queue.NoEntry j) :
    (restoreWindow j).Guards (promoteAvail k) w := by
  have hmove : (restoreWindow j).Guards (Op.queue (.rename (.tmp k.jobId) (.avail k))) w := by
    refine Sat.store_any fun w' hR => ⟨fun _ => hw.noNew hR, fun r v hout v' hR' => ?_⟩
    refine QueueState.OneEntryOf.noNew ?_ hR'
    obtain ⟨-, rfl⟩ | ⟨-, -, rfl | rfl⟩ := hout
    · exact (hw.noNew hR).files
    · exact fun p q hp _ hps => by simp [hw.noNew hR p hp] at hps
    · exact (hw.noNew hR).files
  exact hmove.bind fun moved => by
    cases moved
    · exact .of_calls (.fail _)
    · exact .ret _

theorem retireOrRestore_guards {entry : Option AvailKey} {q : QueuePath} {d : ExpiresAt}
    (hq : (∃ k, entry = some k ∧ q = .avail ⟨j, k.expiresAt⟩) ∨
      ∃ l rest, entry = none ∧ held = l :: rest ∧ q = .leased l)
    (hheld : ∀ l ∈ held, l.jobId = j) {body : Option Json} (hone : w.queue.OneEntryOf j)
    (hthere : body.isSome → (w.queue.files.lookup q).isSome) :
    (restoreWindow j).Guards (retireOrRestore j entry.isSome held d body) w := by
  have hretire : (retireJob j entry.isSome held).Calls fun c => ¬ Files j c :=
    retireJob_calls (fun h => h) (fun _ h => h) fun _ _ h => h
  cases body with
  | none =>
    refine Window.Guards.of_calls (.bind hretire fun _ => .bind (.store fun h => h) fun joiners =>
      .bind (.store fun h => h) fun _ => ?_) hone
    split <;> exact .ret _
  | some b =>
    have hempty := retireJob_empties hq hheld hone (hthere rfl)
    refine .of_sat_bind hempty (fun _ v hv => ?_) fun _ _ hv => hv.1
    have hnone : v.queue.NoEntry j := hv.2 ⟨_, rfl⟩
    have hlist := empties_of_calls (p := Op.plans (.listJobPlanMarkers j)) (.store fun h => h) hnone
    refine .of_sat_bind hlist (fun joiners v hv => ?_) fun _ _ hv => hv.1
    simp only
    split
    · exact fun v' hR => hv.1.noNew hR
    have hstage := empties_of_calls (p := Op.queue (.writeTmp j b)) (.store fun h => h)
      (hv.2 ⟨_, rfl⟩)
    refine .of_sat_bind hstage (fun _ v hv => ?_) fun _ _ hv => hv.1
    refine (promoteAvail_guards (hv.2 ⟨_, rfl⟩)).bind fun _ => .bind ?_ fun _ => .ret _
    exact .of_calls (.store ⟨fun h => h, fun h => h⟩)

theorem retireOrRestore_calls {P : StoreCall → Prop} {inAvail : Bool} {d : ExpiresAt}
    {body : Option Json} (hretire : (retireJob j inAvail held).Calls P)
    (hmarkers : P (.plans (.listJobPlanMarkers j))) (hflag : P (.index (.writePendingReindexJob j)))
    (hstage : ∀ b ∈ body, P (.queue (.writeTmp j b)))
    (hpromote : P (.queue (.rename (.tmp j) (.avail ⟨j, d⟩)))) :
    (retireOrRestore j inAvail held d body).Calls P := by
  refine .bind hretire fun _ => .bind (.store hmarkers) fun joiners => ?_
  cases body with
  | none =>
    refine .bind (.store hflag) fun _ => ?_
    split <;> exact .ret _
  | some b =>
    simp only
    split
    · exact .ret _
    · refine .bind (.store (hstage b rfl)) fun _ => .bind ?_ fun _ => .bind (.store hflag) fun _ =>
        .ret _
      refine .bind (.store hpromote) fun moved => ?_
      split
      · exact .ret _
      · exact .fail _

theorem read_tidy {entry : Option AvailKey} {q : QueuePath} {d : ExpiresAt} (hof : q.IsOf j)
    (hq : (∃ k, entry = some k ∧ q = .avail ⟨j, k.expiresAt⟩) ∨
      ∃ l rest, entry = none ∧ held = l :: rest ∧ q = .leased l)
    (hheld : ∀ l ∈ held, l.jobId = j) :
    (restoreWindow j).Tidy ((Op.queue (.read q)).bind fun body =>
      retireOrRestore j entry.isSome held d body) := by
  have hrest : ∀ body, (retireOrRestore j entry.isSome held d body).Calls fun c =>
      ¬ ReadsEntry j c := fun body =>
    retireOrRestore_calls (retireJob_calls (fun h => h) (fun _ h => h) fun _ _ h => h) (fun h => h)
      (fun h => h) (fun _ _ h => h) fun h => h
  refine Window.Tidy.open_bind (fun h => h) hof hrest ?_
  intro w body w' hw hout
  obtain ⟨hbody, rfl⟩ | ⟨e, he, -⟩ := hout
  · refine retireOrRestore_guards hq hheld hw fun hs => ?_
    cases hbody
    exact hs
  · cases he

theorem endMembership_tidy {p : PlanId} {j' : JobId} {entry : Option AvailKey}
    (hheld : ∀ l ∈ held, l.jobId = j') :
    (restoreWindow j).Tidy (endMembership p j' entry held) := by
  by_cases hj : j' = j
  · subst hj
    rw [endMembership_eq]
    refine .bind (.of_calls ?_) fun _ => .bind (.of_calls (.store ⟨fun h => h, fun h => h⟩))
      fun remaining => ?_
    · exact dropMembership_calls ⟨fun h => h, fun h => h⟩ fun _ => ⟨fun h => h, fun h => h⟩
    split
    · exact .ret _
    cases entry with
    | some k =>
      rw [show bodyToRestore j' (some k) held = (Op.queue (.read (.avail ⟨j', k.expiresAt⟩))).bind
        fun body => .ret (some (k.expiresAt, body)) from rfl, bind_assoc]
      exact read_tidy (j := j') (q := .avail ⟨j', k.expiresAt⟩) (d := k.expiresAt) ⟨_, rfl, rfl⟩
        (.inl ⟨k, rfl, rfl⟩) hheld
    | none =>
      cases held with
      | nil => exact .ret _
      | cons l rest =>
        rw [show bodyToRestore j' none (l :: rest) = (Op.queue (.read (.leased l))).bind
          fun body => .ret (some (l.expiresAt, body)) from rfl, bind_assoc]
        exact read_tidy (j := j') (q := .leased l) (d := l.expiresAt)
          ⟨_, rfl, hheld l List.mem_cons_self⟩ (.inr ⟨l, rest, rfl, rfl, rfl⟩) hheld
  · -- the teardown of another job has nothing to do with this one
    refine .of_calls (endMembership_calls ?_ hheld)
    have hother : ∀ {p : QueuePath} {k : AvailKey}, p.queued = some k → k.jobId = j' →
        ¬ p.IsOf j := by
      rintro p k hk hjob ⟨k', hk', hjob'⟩
      cases hk.symm.trans hk'
      exact hj (hjob.symm.trans hjob')
    exact
      { markers := ⟨fun h => h, fun h => h⟩
        drop := fun _ => ⟨fun h => h, fun h => h⟩
        list := ⟨fun h => h, fun h => h⟩
        entry := fun d => ⟨⟨hother rfl rfl, fun h => h⟩, fun h => h, fun h => h⟩
        lease := fun l hl => ⟨⟨hother rfl hl, fun h => h⟩, fun h => h, fun h => h⟩
        restore := fun d body => ⟨⟨fun h => h, fun h => h⟩, fun h => h, hother rfl rfl⟩
        flag := ⟨fun h => h, fun h => h⟩ }

theorem tearDownPlans_tidy {manifests : List PlanManifest} {cancelMarkers : List PlanId}
    {membership : List JobPlanMarker} {avail : List AvailKey} {leases : List Lease}
    {now : Instant} {creatingMaxAge : Nat} :
    (restoreWindow j).Tidy
      (tearDownPlans manifests cancelMarkers membership avail leases now creatingMaxAge) := by
  refine Window.Tidy.bind (.foldlM (fun acc m => .foldlM (fun acc j' => ?_) _ _) _ _)
    fun _ => .ret _
  unfold tearDownJob
  split
  · exact .ret _
  extract_lets entry held
  split
  · exact .ret _
  refine .bind (.attempt (endMembership_tidy fun l hl => ?_)) fun fate => ?_
  · simpa using (List.mem_filter.mp hl).2
  · split <;> exact .ret _

end Teardown

def JoinCall : StoreCall → Prop
  | .queue (.listAvailOf _) | .queue .listLeased => True
  | .records (.tryExists _ _) => True
  | .plans (.writeJobPlanMarker _ _ _ _) | .plans (.deleteJobPlanMarker _ _ _) => True
  | _ => False

section Joins

variable {P : StoreCall → Prop} {j : JobId} {snapshot : Option (List Lease)} {ctx : MergeContext}
  {clock : Instant} {horizon : ExpiresAt}

theorem availState_calls (hdir : P (.queue (.listAvailOf j))) : (availState j).Calls P :=
  .bind (.bind (.store hdir) fun _ => .ret _) fun _ => .ret _

theorem officialState_calls (hdir : P (.queue (.listAvailOf j))) (hleased : P (.queue .listLeased)) :
    (officialState snapshot j).Calls P := by
  refine .bind (availState_calls hdir) fun d => ?_
  cases d with
  | some d => exact .ret _
  | none =>
    have hsnapshot : (leasedSnapshot snapshot).Calls P := by
      cases snapshot
      · exact .store hleased
      · exact .ret _
    refine .bind hsnapshot fun leases => ?_
    split
    · exact .ret _
    · refine .bind (.store hleased) fun fresh => ?_
      split
      · exact .ret _
      · refine .bind (availState_calls hdir) fun d => ?_
        cases d <;> exact .ret _

theorem targetSurvives_calls (hdir : P (.queue (.listAvailOf j))) (hleased : P (.queue .listLeased))
    (hprobe : ∀ p, P (.records (.tryExists p j))) : (targetSurvives j).Calls P := by
  refine .bind (availState_calls hdir) fun d => ?_
  split
  · exact .ret _
  refine .bind (.store hleased) fun leases => ?_
  split
  · exact .ret _
  refine .bind (availState_calls hdir) fun d => ?_
  split
  · exact .ret _
  · exact hasRecord_calls hprobe

theorem confirmMembership_joining : (ctx.confirmMembership clock j horizon).Calls JoinCall := by
  refine .bind (.store trivial) fun _ =>
    .bind (targetSurvives_calls trivial trivial fun _ => trivial) fun survives => ?_
  split
  · exact .ret _
  · exact .bind (.attempt (.store trivial)) fun _ => .ret _

theorem JoinRequest.place_joining (r : JoinRequest) : r.place.Calls JoinCall := by
  cases r with
  | tryJoin ctx clock snapshot record planExpiry =>
    refine .bind (.bind (officialState_calls trivial trivial) fun state => ?_) fun attempt => ?_
    · obtain ⟨official | _, snapshot⟩ := state
      · simp only [pure_eq, bind_eq, ret_bind]
        split
        · exact .ret _
        · refine .bind confirmMembership_joining fun confirmed => ?_
          split <;> exact .ret _
      · exact .ret _
    · split <;> exact .ret _
  | carry ctx clock snapshot j horizon =>
    have hrecord : (hasRecord j).Calls JoinCall := hasRecord_calls fun _ => trivial
    refine .bind (.bind hrecord fun found => ?_) fun _ => .ret _
    split
    · exact .ret _
    · refine .bind (officialState_calls trivial trivial) fun state => ?_
      obtain ⟨official | _, snapshot⟩ := state
      · simp only [pure_eq, bind_eq, ret_bind]
        split
        · exact .ret _
        · refine .bind confirmMembership_joining fun confirmed => ?_
          split <;> exact .ret _
      · refine .bind hrecord fun found => ?_
        split <;> exact .ret _

end Joins

inductive JobActor
  | queue (a : QueueActor)
  | join (r : JoinRequest)

namespace JobActor

def program : JobActor → Op Unit
  | queue a => a.program
  | join r => r.place.void

def MayCall : JobActor → StoreCall → Prop
  | queue a => a.MayCall
  | join _ => JoinCall

theorem program_calls (a : JobActor) : a.program.Calls a.MayCall := by
  cases a with
  | queue a => exact a.program_calls
  | join r => exact .void r.place_joining

theorem MayCall.keepsJobs {a : JobActor} {c : QueueCall} (h : a.MayCall (.queue c)) :
    c.KeepsJobs := by
  cases a with
  | queue a => exact QueueActor.MayCall.keepsJobs h
  | join r => cases c <;> first | exact h.elim | trivial

end JobActor

structure TeardownPass where
  manifests : List PlanManifest
  cancelMarkers : List PlanId
  membership : List JobPlanMarker
  avail : List AvailKey
  leases : List Lease
  now : Instant
  creatingMaxAge : Nat

def TeardownPass.program (pass : TeardownPass) : Op Unit :=
  (tearDownPlans pass.manifests pass.cancelMarkers pass.membership pass.avail pass.leases pass.now
    pass.creatingMaxAge).void

section Runs

open Prog.Pool

variable {ι : Type} {j : JobId} {w : World} {pass : TeardownPass} {actors : ι → JobActor}

def restorePool (w : World) (pass : TeardownPass) (actors : ι → JobActor) :
    Pool Stores World (Option ι) fun _ => Unit :=
  ⟨w, fun
    | none => pass.program
    | some i => (actors i).program⟩

/-- The teardown can come to put the job back with no further look at its file. -/
def Carrying (j : JobId) (t : Pool Stores World (Option ι) fun _ => Unit) : Prop :=
  (t.procs none).Carries (ReadsEntry j) (Files j)

/-- Nobody else moves a file of the job while the teardown carries its body. -/
def LeavesCarried (j : JobId) (t : Pool Stores World (Option ι) fun _ => Unit) :
    Option ι → StoreCall → Prop
  | some _, .queue (.rename src _) =>
    src.IsOf j → (t.world.queue.files.lookup src).isSome → ¬ Carrying j t
  | _, _ => True

theorem LeavesCarried.bears {t : Pool Stores World (Option ι) fun _ => Unit} {i : ι}
    {c : StoreCall} {r : Except Fault c.Answer} {w' : World} (hcond : LeavesCarried j t (some i) c)
    (hmay : (actors i).MayCall c) (hout : machine.faulty c t.world r w') :
    NoNew j t.world w' ∨ ¬ Carrying j t := by
  by_cases hc : Files j c
  · cases c with
    | queue c =>
      cases c with
      | rename src dst =>
        obtain ⟨k, k', hsrc, hdst, hjob⟩ := JobActor.MayCall.keepsJobs hmay
        have hof : src.IsOf j := by
          obtain ⟨k₁, hk₁, rfl⟩ := hc
          cases hdst.symm.trans hk₁
          exact ⟨k, hsrc, hjob.symm⟩
        by_cases hthere : (t.world.queue.files.lookup src).isSome
        · exact .inr (hcond hof hthere)
        · have hsame := rename_of_gone dst (by simpa using hthere)
          refine .inl ?_
          obtain ⟨-, rfl⟩ | ⟨-, -, rfl | rfl⟩ := hout
          · rw [hsame]
            exact refl_of (NoNew j) _
          · exact refl_of (NoNew j) _
          · rw [hsame]
            exact refl_of (NoNew j) _
      | _ => exact hc.elim
    | _ => exact hc.elim
  · exact .inl (noNew_faulty hc hout)

variable [DecidableEq ι]

/-- A teardown pass among any number of requests, settling passes and joining plans, any call
failing: if nobody moves the job while the teardown carries its body, no state has the job both in
`leased/` and in `avail/`. -/
theorem restore_never_duplicates {t : Pool Stores World (Option ι) fun _ => Unit}
    (hone : w.queue.OneEntryOf j)
    (h : Reach machine.faulty (LeavesCarried j) (restorePool w pass actors) t) :
    ¬ ((∃ l ∈ t.world.queue.leases, l.jobId = j) ∧ ∃ k ∈ t.world.queue.availKeys, k.jobId = j) := by
  let may : Option ι → StoreCall → Prop := fun i c => ∀ i', i = some i' → (actors i').MayCall c
  have htidy : (restoreWindow j).Tidy pass.program := tearDownPlans_tidy.bind fun _ => .ret _
  have hstart : (restoreWindow j).inv (restorePool w pass actors).world := hone
  have hrun : Reach (restoreWindow j).outcomes (LeavesCarried j) (restorePool w pass actors) t := h
  have haround : Around (restoreWindow j) none may t := by
    refine hrun.around hstart htidy ?_ ?_ ?_
    · intro i hi
      obtain ⟨i, rfl⟩ := Option.ne_none_iff_exists'.mp hi
      refine (actors i).program_calls.mono fun c hc i' hi' => ?_
      cases hi'
      exact hc
    · intro i c v r v' hi hmay hout hv
      obtain ⟨i, rfl⟩ := Option.ne_none_iff_exists'.mp hi
      obtain hq | ⟨c', rfl, hq⟩ := faulty_queue hout
      · simpa only [restoreWindow, hq] using hv
      · simpa only [restoreWindow, hq] using (JobActor.MayCall.keepsJobs (hmay i rfl)).oneEntryOf hv
    · intro u i c r v' hi hmay hcond hout
      obtain ⟨i, rfl⟩ := Option.ne_none_iff_exists'.mp hi
      exact LeavesCarried.bears hcond (hmay i rfl) hout
  rintro ⟨⟨l, hl, hlj⟩, k, hk, hkj⟩
  have hsame := haround.inv (.leased l) (.avail k) ⟨_, rfl, hlj⟩ ⟨_, rfl, hkj⟩
    (QueueState.mem_leases.mp hl) (QueueState.mem_availKeys.mp hk)
  cases hsame

end Runs

def cancelledPlanWorld (j : JobId) (p : PlanId) (client : ClientId) : World :=
  { World.empty with
    queue := ⟨(∅ : FileTree _ _).insert (.avail ⟨j, .never⟩) (.str "body")⟩
    index := { World.empty.index with eligible := (∅ : FileTree _ _).insert ⟨client, j, .never⟩ () }
    plans := { World.empty.plans with jobPlans := (∅ : FileTree _ _).insert (j, p, .never) 0 } }

def cancelledPlanTeardown (j : JobId) (p : PlanId) : TeardownPass :=
  ⟨[⟨p, .cancelling, 0, [j], ∅, ∅, none, none⟩], [], [⟨j, p, .never, 0⟩], [⟨j, .never⟩], [], 5, 60⟩

def claimAndJoin (j : JobId) (p p' : PlanId) (client : ClientId) : Bool → JobActor
  | true => .queue (.claim ⟨60, 3⟩ 5 ⟨client, .approved, {}, ∅⟩ fun _ => 0)
  | false => .join (.tryJoin ⟨p', 5, 60⟩ 5 none ⟨j, p, 0, 0⟩ .never)

def movesFile : StoreCall → Bool
  | .queue (.rename _ _) => true
  | _ => false

theorem LeavesCarried.of_still {ι : Type} {j : JobId}
    {t : Prog.Pool Stores World (Option ι) fun _ => Unit}
    (h : (t.procs none).outcome.isSome ∨ ∀ i, (t.next (some i)).all fun c => !movesFile c) :
    ∀ i, ∀ c ∈ t.next i, LeavesCarried j t i c := by
  intro i c hc
  cases i with
  | none => trivial
  | some i =>
    obtain hdone | hstill := h
    · cases c with
      | queue c =>
        cases c with
        | rename => exact fun _ _ => not_carries_of_outcome hdone
        | _ => trivial
      | _ => trivial
    · have hno := hstill i
      rw [hc] at hno
      cases c with
      | queue c =>
        cases c with
        | rename => cases hno
        | _ => trivial
      | _ => trivial

/-- A plan joins between the read of the body and the deletes; the job is put back, and then
claimed. -/
theorem restore_never_duplicates_claimed :
    let j : JobId := ⟨"job"⟩
    let client : ClientId := ⟨"client"⟩
    let w := cancelledPlanWorld j ⟨"old"⟩ client
    let s := restorePool w (cancelledPlanTeardown j ⟨"old"⟩) (claimAndJoin j ⟨"old"⟩ ⟨"new"⟩ client)
    let t := s.play machine (List.replicate 4 none ++ List.replicate 9 (some false) ++
      List.replicate 9 none ++ List.replicate 20 (some true))
    t.world.queue.files.keys = [.leased ⟨j, .never, client, ⟨60⟩⟩] ∧
      ¬ ((∃ l ∈ t.world.queue.leases, l.jobId = j) ∧
        ∃ k ∈ t.world.queue.availKeys, k.jobId = j) := by
  intro j client w s t
  have hone : w.queue.OneEntryOf j := by
    have hkeys : ∀ p, (w.queue.files.lookup p).isSome → p = .avail ⟨j, .never⟩ := fun p hp => by
      simpa using (show p ∈ [QueuePath.avail ⟨j, .never⟩] from FileTree.mem_keys_iff.mpr hp)
    exact fun p q _ _ hp hq => (hkeys p hp).trans (hkeys q hq).symm
  have hplay : Prog.Pool.Reach machine.clean (LeavesCarried j) s t :=
    .play_next fun u hu => LeavesCarried.of_still (by revert u; decide +kernel)
  have hrun : Prog.Pool.Reach machine.faulty (LeavesCarried j) s t :=
    hplay.mono (fun _ _ _ _ h => .inl h) fun _ _ _ h => h
  exact ⟨by decide +kernel, restore_never_duplicates hone hrun⟩

/-- The claim comes between the read of the body and the deletes: the teardown puts back a job it
did not delete. -/
theorem restore_duplicates_claimed :
    let j : JobId := ⟨"job"⟩
    let client : ClientId := ⟨"client"⟩
    let w := cancelledPlanWorld j ⟨"old"⟩ client
    let s := restorePool w (cancelledPlanTeardown j ⟨"old"⟩) (claimAndJoin j ⟨"old"⟩ ⟨"new"⟩ client)
    w.queue.files.keys = [.avail ⟨j, .never⟩] ∧
      ∃ t, Prog.Pool.Reach machine.clean (fun _ _ _ => True) s t ∧
        (∃ l ∈ t.world.queue.leases, l.jobId = j) ∧
        ∃ k ∈ t.world.queue.availKeys, k.jobId = j := by
  intro j client w s
  refine ⟨rfl, s.play machine (List.replicate 4 none ++ List.replicate 9 (some false) ++
    List.replicate 20 (some true) ++ List.replicate 9 none), .play fun _ _ => trivial, ?_, ?_⟩
  · decide +kernel
  · decide +kernel

end Pipette
