import Pipette.Pipeline.Stages
import Pipette.System.OneEntry

/-! One maintenance run among devices that move a job, judged while the job stays queued: no pass
takes the job for gone. -/
namespace Pipette

def QueueState.Queued (s : QueueState) (j : JobId) : Prop :=
  ∃ p ∈ s.files.keys, p.queued.map (·.jobId) = some j

instance (s : QueueState) (j : JobId) : Decidable (s.Queued j) :=
  inferInstanceAs (Decidable (∃ p ∈ s.files.keys, p.queued.map (·.jobId) = some j))

structure At (j : JobId) (w : World) (p : QueuePath) (body : Json) : Prop where
  job : p.queued.map (·.jobId) = some j
  here : w.queue.files.lookup p = some body
  only : ∀ q, q.queued.map (·.jobId) = some j → (w.queue.files.lookup q).isSome → q = p

theorem At.unique {j : JobId} {w : World} {p q : QueuePath} {b b' : Json} (h : At j w p b)
    (h' : At j w q b') : q = p ∧ b' = b := by
  have hq : q = p := h.only q h'.job (by simp [h'.here])
  subst hq
  exact ⟨rfl, Option.some.inj (h'.here.symm.trans h.here)⟩

theorem At.carries {j : JobId} {w w' : World} {p : QueuePath} {b : Json} (h : At j w p b)
    (h' : At j w' p b) (q : QueuePath) (c : Json) (hq : At j w q c) : At j w' q c := by
  obtain ⟨rfl, rfl⟩ := h.unique hq
  exact h'

theorem At.queued {j : JobId} {w : World} {p : QueuePath} {b : Json} (h : At j w p b) :
    w.queue.Queued j :=
  ⟨p, FileTree.mem_keys_iff.mpr (by simp [h.here]), h.job⟩

theorem At.frame {j : JobId} {w w' : World} {p : QueuePath} {b : Json} (h : At j w p b)
    (hq : w'.queue = w.queue) : At j w' p b :=
  ⟨h.job, hq ▸ h.here, hq ▸ h.only⟩

/-- A lone job keeps one entry through every call that moves entries within their job, as long as
it is queued. -/
theorem QueueCall.KeepsJobs.atMoved {c : QueueCall} {j : JobId} {w w' : World} {p : QueuePath} {b : Json}
    (hc : c.KeepsJobs) (hw : w'.queue = (c.step w.queue).2) (hq : w'.queue.Queued j)
    (h : At j w p b) : ∃ p', At j w' p' b ∧ p' = c.moved p := by
  -- every entry of the job after the call was the entry at `p` before it
  have horigin : ∀ q, q.queued.map (·.jobId) = some j → (w'.queue.files.lookup q).isSome →
      q = c.moved p ∧ w'.queue.files.lookup q = some b := by
    intro q hjob hsome
    obtain ⟨b', hb'⟩ := Option.isSome_iff_exists.mp hsome
    obtain ⟨k, hk, hkj⟩ := Option.map_eq_some_iff.mp hjob
    rw [hw] at hb'
    obtain ⟨q₀, k₀, hq₀, hk₀, hmoved, -⟩ := hc.origin (s := w.queue) ⟨hk, hb'⟩
    have hpath : q₀ = p := by
      refine h.only q₀ ?_ (by simp [hq₀.2])
      rw [hq₀.1, Option.map_some, hk₀, hkj]
    subst hpath
    have hbody : b' = b := Option.some.inj (hq₀.2.symm.trans h.here)
    exact ⟨hmoved.symm, by rw [hw, hb', hbody]⟩
  obtain ⟨q, hq, hjob⟩ := hq
  obtain ⟨hpath, hbody⟩ := horigin q hjob (FileTree.mem_keys_iff.mp hq)
  exact ⟨q, ⟨hjob, hbody, fun q' hj' hs' => (horigin q' hj' hs').1.trans hpath.symm⟩, hpath⟩

section Interference

variable (ctx : RunContext) (plans₀ : PlanState) (j : JobId)

def OwesTeardown : Prop :=
  ∃ m ∈ plans₀.manifests.entries.map (·.2), j ∈ m.jobIds ∧
    (teardownCause m plans₀.cancelMarkers.keys ctx.now ctx.settings.planCreatingMax).isSome

def Removable (k : AvailKey) (body : Json) : Prop :=
  k.expiresAt.isExpired ctx.now ∨ (unmatchableCause body).isSome ∨ (clientsOnlyRoster body).isSome

/-- The job keeps its key; it stays where it is if a run under way can end it there. -/
def Move (p p' : QueuePath) (body : Json) : Prop :=
  p'.queued = p.queued ∧
    (p' ≠ p → ¬ OwesTeardown ctx plans₀ j ∧ ∀ k, p = .avail k → ¬ Removable ctx k body)

def Bears (w w' : World) : Prop :=
  w'.plans = w.plans ∧ ∀ p b, At j w p b → ∃ p', At j w' p' b ∧ Move ctx plans₀ j p p' b

instance : Std.Refl (Bears ctx plans₀ j) :=
  ⟨fun _ => ⟨rfl, fun p _ h => ⟨p, h, rfl, fun hne => absurd rfl hne⟩⟩⟩

instance : IsTrans World (Bears ctx plans₀ j) where
  trans u v w h h' := by
    refine ⟨h'.1.trans h.1, fun p b hp => ?_⟩
    obtain ⟨q, hq, hkey, hmove⟩ := h.2 p b hp
    obtain ⟨r, hr, hkey', hmove'⟩ := h'.2 q b hq
    refine ⟨r, hr, hkey'.trans hkey, fun hne => ?_⟩
    by_cases hqp : q = p
    · subst hqp
      exact hmove' hne
    · exact hmove hqp

end Interference

/-- Only steps after which the job is queued: elsewhere it has been gone for a moment. -/
abbrev Watched (j : JobId) : Prog.Outcomes Stores World :=
  machine.faulty.within fun w => w.queue.Queued j

def Latching (j : JobId) (c : StoreCall) (w : World) : Prop :=
  ∀ m, c = .plans (.putPlan m) → m.status = .complete → j ∈ m.jobIds →
    (m.expiredJobs.lookup j).isSome ∨
      ∃ m₀, w.plans.manifests.lookup m.planId = some m₀ ∧ m₀.status = .complete

section Judgement

variable {ctx : RunContext} {plans₀ : PlanState} {j : JobId} {w w' : World} {α : Type}

variable (ctx plans₀ j) in
abbrev Judged (p : Op α) (Q : Except Fault α → World → Prop) (w : World) : Prop :=
  p.Sat (Watched j) (Bears ctx plans₀ j) (Latching j) Q w

def Spares (j : JobId) : StoreCall → Prop
  | .queue (.rename src dst) =>
    src.queued.map (·.jobId) ≠ some j ∧ dst.queued.map (·.jobId) ≠ some j
  | .queue (.remove p) => p.queued.map (·.jobId) ≠ some j
  | .plans (.putPlan _) => False
  | _ => True

theorem Spares.latching {c : StoreCall} (h : Spares j c) : Latching j c w := by
  rintro m rfl
  exact h.elim

theorem Spares.lookup {c : QueueCall} {s : QueueState} {q : QueuePath} (h : Spares j (.queue c))
    (hq : q.queued.map (·.jobId) = some j) :
    (c.step s).2.files.lookup q = s.files.lookup q := by
  cases c with
  | rename src dst =>
    have hsrc : q ≠ src := fun he => h.1 (he ▸ hq)
    have hdst : q ≠ dst := fun he => h.2 (he ▸ hq)
    rw [QueueState.step_rename]
    cases hmove : s.files.rename src dst with
    | none => rfl
    | some files => simp [FileTree.lookup_rename hmove, hsrc, hdst]
  | remove p =>
    have hp : q ≠ p := fun he => h (he ▸ hq)
    simp [QueueCall.step, hp]
  | writeTmp j' b =>
    have htmp : q ≠ .tmp j' := by
      rintro rfl
      cases hq
    simp [QueueCall.step, htmp]
  | _ => rfl

theorem Spares.at {c : StoreCall} {r : Except Fault c.Answer} {p : QueuePath} {b : Json}
    (h : Spares j c) (hout : machine.faulty c w r w') (hp : At j w p b) : At j w' p b := by
  have hlookup : ∀ q, q.queued.map (·.jobId) = some j →
      w'.queue.files.lookup q = w.queue.files.lookup q := by
    intro q hq
    obtain hsame | ⟨c', rfl, hstep⟩ := faulty_queue hout
    · rw [hsame]
    · rw [hstep, h.lookup hq]
  exact ⟨hp.job, (hlookup p hp.job).trans hp.here,
    fun q hq hsome => hp.only q hq (hlookup q hq ▸ hsome)⟩

variable (ctx plans₀ j) in
structure Steady (A : World → Prop) : Prop where
  bears : ∀ w w', A w → Bears ctx plans₀ j w w' → A w'
  anchored : ∀ w w', (∀ p b, At j w p b → At j w' p b) → A w → A w'

theorem Steady.and {A B : World → Prop} (hA : Steady ctx plans₀ j A) (hB : Steady ctx plans₀ j B) :
    Steady ctx plans₀ j fun w => A w ∧ B w :=
  ⟨fun _ _ h hw => ⟨hA.bears _ _ h.1 hw, hB.bears _ _ h.2 hw⟩,
    fun _ _ hw h => ⟨hA.anchored _ _ hw h.1, hB.anchored _ _ hw h.2⟩⟩

def Present (j : JobId) (w : World) : Prop := ∃ p b, At j w p b

theorem Present.steady : Steady ctx plans₀ j (Present j) := by
  constructor
  · rintro w w' ⟨p, b, h⟩ hw
    obtain ⟨p', h', -⟩ := hw.2 p b h
    exact ⟨p', b, h'⟩
  · rintro w w' hw ⟨p, b, h⟩
    exact ⟨p, b, hw p b h⟩

theorem steady_removable {k : AvailKey} {b : Json} (h : Removable ctx k b) :
    Steady ctx plans₀ j fun w => At j w (.avail k) b := by
  constructor
  · intro w w' hp hw
    obtain ⟨p', h', -, hmove⟩ := hw.2 _ b hp
    by_cases hp' : p' = .avail k
    · exact hp' ▸ h'
    · exact absurd h ((hmove hp').2 k rfl)
  · exact fun w w' hw hp => hw _ b hp

theorem Steady.judged {A : World → Prop} (hA : Steady ctx plans₀ j A) {p : Op α}
    (hp : p.Calls (Spares j)) (hw : A w) : Judged ctx plans₀ j p (fun _ w => A w) w := by
  refine .invariant hA.bears (fun c v hc hv => ⟨hc.latching, fun r v' hout => ?_⟩) hp hw
  exact hA.anchored v v' (fun p b => hc.at hout.1) hv

theorem answered {A : World → Prop} {c : StoreCall}
    (hbears : ∀ w w', A w → Bears ctx plans₀ j w w' → A w')
    (hkeep : ∀ w r w', A w → machine.faulty c w r w' → A w') (hlatch : ∀ w, Latching j c w)
    (hw : A w) :
    Judged ctx plans₀ j (Prog.store c) (fun r w => A w ∧ ∀ a, r = .ok a →
      ∃ v, A v ∧ a = (machine c v).1 ∧ Bears ctx plans₀ j (machine c v).2 w) w := by
  refine .store_any fun v hv => ⟨hlatch v, ?_⟩
  have hat := hbears _ _ hw hv
  rintro r v' ⟨hout, -⟩ u hu
  refine ⟨hbears _ _ (hkeep v r v' hat hout) hu, fun a ha => ?_⟩
  obtain ⟨rfl, rfl⟩ | ⟨e, rfl, -⟩ := hout
  · exact ⟨v, hat, (Except.ok.inj ha).symm, hu⟩
  · cases ha

theorem Steady.answered {A : World → Prop} {c : StoreCall} (hA : Steady ctx plans₀ j A)
    (hc : Spares j c) (hw : A w) :
    Judged ctx plans₀ j (Prog.store c) (fun r w => A w ∧ ∀ a, r = .ok a →
      ∃ v, A v ∧ a = (machine c v).1 ∧ Bears ctx plans₀ j (machine c v).2 w) w :=
  Pipette.answered hA.bears (fun w _ w' h hout => hA.anchored w w' (fun _ _ => hc.at hout) h)
    (fun _ => hc.latching) hw

theorem At.not_queued_remove {p : QueuePath} {b : Json} (h : At j w p b) :
    ¬ (machine (.queue (.remove p)) w).2.queue.Queued j := by
  rintro ⟨q, hq, hjob⟩
  have hsome : (((QueueCall.remove p).step w.queue).2.files.lookup q).isSome :=
    FileTree.mem_keys_iff.mp hq
  simp only [QueueCall.step, FileTree.lookup_remove] at hsome
  split at hsome
  · cases hsome
  · next hne => exact hne (h.only q hjob hsome)

theorem remove_judged {p : QueuePath} {b : Json} (hA : Steady ctx plans₀ j fun w => At j w p b)
    (hw : At j w p b) :
    Judged ctx plans₀ j (Op.queue (.remove p)) (fun r w => (∃ e, r = .error e) ∧ At j w p b) w := by
  refine .store_any fun v hv => ⟨by rintro m ⟨⟩, ?_⟩
  have hat := hA.bears _ _ hw hv
  rintro r v' ⟨hout, hqueued⟩ u hu
  obtain ⟨-, rfl⟩ | ⟨e, rfl, rfl | rfl⟩ := hout
  · exact absurd hqueued hat.not_queued_remove
  · exact ⟨⟨e, rfl⟩, hA.bears _ _ hat hu⟩
  · exact absurd hqueued hat.not_queued_remove

theorem read_judged {p : QueuePath} {b : Json} (hA : Steady ctx plans₀ j fun w => At j w p b)
    (hw : At j w p b) :
    Judged ctx plans₀ j (Op.queue (.read p))
      (fun r w => At j w p b ∧ ∀ a, r = .ok a → a = some b) w := by
  have hread := hA.answered (c := .queue (.read p)) trivial hw
  refine hread.mono (fun _ _ h => h) fun r v hv => ⟨hv.1, fun a ha => ?_⟩
  obtain ⟨u, hu, rfl, -⟩ := hv.2 a ha
  exact hu.here

theorem Judged.fails_bind {β : Type} {A : World → Prop} {p : Op α} {f : α → Op β}
    (hA : Steady ctx plans₀ j A)
    (h : Judged ctx plans₀ j p (fun r w => (∃ e, r = .error e) ∧ A w) w) :
    Judged ctx plans₀ j (p.bind f) (fun r w => (∃ e, r = .error e) ∧ A w) w := by
  refine h.bind (fun a v hv => ?_) fun e v hv v' hw => ⟨⟨e, rfl⟩, hA.bears _ _ hv.2 hw⟩
  obtain ⟨⟨e, he⟩, -⟩ := hv
  cases he

theorem Judged.spares_bind {β : Type} {A : World → Prop} {p : Op α} {f : α → Op β}
    (hA : Steady ctx plans₀ j A) (hp : p.Calls (Spares j)) (hw : A w)
    (h : ∀ a w, A w → Judged ctx plans₀ j (f a) (fun r w => (∃ e, r = .error e) ∧ A w) w) :
    Judged ctx plans₀ j (p.bind f) (fun r w => (∃ e, r = .error e) ∧ A w) w :=
  (hA.judged hp hw).bind (fun a v hv => h a v hv)
    fun e _ hv _ hw => ⟨⟨e, rfl⟩, hA.bears _ _ hv hw⟩

theorem Spares.ending : AllowsEnding (Spares j) := ⟨fun _ _ => trivial, fun _ _ => trivial⟩

theorem resolveJobTerminal_judged {catalog : Catalog} {k : AvailKey} {b body : Json}
    {source : FailureSource} (hA : Steady ctx plans₀ j fun w => At j w (.avail k) b)
    (hw : At j w (.avail k) b) :
    Judged ctx plans₀ j (resolveJobTerminal catalog (.avail k) body source)
      (fun r w => (∃ e, r = .error e) ∧ At j w (.avail k) b) w := by
  have hdelete : ∀ (a : Bool) v, At j v (.avail k) b →
      Judged ctx plans₀ j ((QueueEntry.avail k).delete.bind fun _ => pure a)
        (fun r w => (∃ e, r = .error e) ∧ At j w (.avail k) b) v := fun a v hv =>
    .fails_bind hA (.fails_bind hA (remove_judged hA hv))
  refine .spares_bind hA (hasRecord_calls fun _ => trivial) hw fun found v hv => ?_
  cases found with
  | true => exact hdelete false v hv
  | false =>
    refine .spares_bind hA (.attempt (recordSystemFailure_calls Spares.ending)) hv fun r v hv => ?_
    split
    · exact hdelete _ v hv
    · exact hdelete false v hv
    · exact fun v' hw => ⟨⟨_, rfl⟩, hA.bears _ _ hv hw⟩

theorem settling_judged {now : Instant} {p : Op α} (hp : p.Calls (SettlingCall now))
    (hw : Present j w) : Judged ctx plans₀ j p (fun _ w => Present j w) w := by
  refine .invariant Present.steady.bears (fun c v hc hv => ⟨?_, fun r v' hout => ?_⟩) hp hw
  · rintro m rfl
    exact hc.elim
  · obtain ⟨q, b, hat⟩ := hv
    obtain hsame | ⟨c', rfl, hstep⟩ := faulty_queue hout.1
    · exact ⟨q, b, hat.frame hsame⟩
    · obtain ⟨p', hp', -⟩ := (QueueCall.BySettling.keepsJobs hc).atMoved hstep hout.2 hat
      exact ⟨p', b, hp'⟩

def Pinned (ctx : RunContext) (j : JobId) (k : AvailKey) (w : World) : Prop :=
  k.expiresAt.isExpired ctx.now → ∃ b, At j w (.avail k) b

theorem Pinned.steady {k : AvailKey} : Steady ctx plans₀ j (Pinned ctx j k) := by
  constructor
  · intro w w' h hw hexp
    obtain ⟨b, hb⟩ := h hexp
    exact ⟨b, (steady_removable (.inl hexp)).bears _ _ hb hw⟩
  · intro w w' hw h hexp
    obtain ⟨b, hb⟩ := h hexp
    exact ⟨b, hw _ b hb⟩

theorem expireOneJob_judged {k : AvailKey} {b : Json}
    (hA : Steady ctx plans₀ j fun w => At j w (.avail k) b) (hw : At j w (.avail k) b) :
    Judged ctx plans₀ j (expireOneJob ctx.catalog k)
      (fun r w => (∃ e, r = .error e) ∧ At j w (.avail k) b) w := by
  refine (read_judged hA hw).bind (fun body v hv => ?_)
    fun e _ hv _ hw => ⟨⟨e, rfl⟩, hA.bears _ _ hv.1 hw⟩
  obtain ⟨hat, hbody⟩ := hv
  rw [hbody body rfl]
  exact Judged.fails_bind hA (resolveJobTerminal_judged hA hat)

theorem redateAvail_judged {k : AvailKey} {b : Json} {d : ExpiresAt}
    (hA : Steady ctx plans₀ j fun w => At j w (.avail k) b) (hw : At j w (.avail k) b) :
    Judged ctx plans₀ j (redateAvail k d) (fun r w => Present j w ∧ ∀ a, r = .ok a → a = true) w := by
  refine .store_any fun v hv => ⟨by rintro m ⟨⟩, ?_⟩
  have hat := hA.bears _ _ hw hv
  have hkeeps : (QueueCall.rename (.avail k) (.avail ⟨k.jobId, d⟩)).KeepsJobs :=
    ⟨k, ⟨k.jobId, d⟩, rfl, rfl, rfl⟩
  rintro r v' ⟨hout, hqueued⟩ u hu
  have hpresent : Present j u := by
    refine Present.steady.bears v' u ?_ hu
    obtain hsame | ⟨c, hc, hstep⟩ := faulty_queue hout
    · exact ⟨_, b, hat.frame hsame⟩
    · cases hc
      obtain ⟨p', hp', -⟩ := hkeeps.atMoved hstep hqueued hat
      exact ⟨p', b, hp'⟩
  refine ⟨hpresent, fun a ha => ?_⟩
  obtain ⟨rfl, -⟩ | ⟨e, rfl, -⟩ := hout
  · cases ha
    cases hmove : v.queue.files.rename (.avail k) (.avail ⟨k.jobId, d⟩) with
    | none =>
      rw [FileTree.rename_eq_none, hat.here] at hmove
      cases hmove
    | some files => simp [machine, QueueState.step_rename, hmove]
  · cases ha

theorem settleOverdueJob_judged {k : AvailKey} {b : Json} (hk : k.jobId = j)
    (hexp : k.expiresAt.isExpired ctx.now) (hw : At j w (.avail k) b) :
    Judged ctx plans₀ j (settleOverdueJob ctx.catalog k ctx.now)
      (fun r w => Present j w ∧ ∀ o, r = .ok o → ∃ k', o = .redated k' ∧ k'.jobId = j) w := by
  have hA : Steady ctx plans₀ j fun w => At j w (.avail k) b := steady_removable (.inl hexp)
  have hspares : (Op.plans (.listJobPlanMarkers k.jobId)).Calls (Spares j) := .store trivial
  refine (hA.judged hspares hw).bind (fun markers v hv => ?_)
    fun e _ hv _ hw => ⟨⟨_, b, hA.bears _ _ hv hw⟩, fun o ho => by cases ho⟩
  split
  · refine (expireOneJob_judged hA hv).bind (fun retired v hv => ?_)
      fun e _ hv _ hw => ⟨⟨_, b, hA.bears _ _ hv.2 hw⟩, fun o ho => by cases ho⟩
    obtain ⟨⟨e, he⟩, -⟩ := hv
    cases he
  · refine (redateAvail_judged hA hv).bind (fun moved v hv => ?_)
      fun e v hv v' hw => ⟨Present.steady.bears _ _ hv.1 hw, fun o ho => by cases ho⟩
    obtain ⟨hpresent, hmoved⟩ := hv
    rw [hmoved moved rfl, if_pos rfl]
    have hflag : (Op.index (.writePendingReindexJob k.jobId)).Calls (Spares j) := .store trivial
    refine (Present.steady.judged hflag hpresent).bind (fun _ v hv => ?_)
      fun e v hv v' hw => ⟨Present.steady.bears _ _ hv hw, fun o ho => by cases ho⟩
    intro v' hw
    refine ⟨Present.steady.bears _ _ hv hw, fun o ho => ?_⟩
    cases ho
    exact ⟨_, rfl, hk⟩

def Keeps (j : JobId) (keys : List AvailKey) : Prop := ∃ k ∈ keys, k.jobId = j

theorem Keeps.append {keys more : List AvailKey} (h : Keeps j keys) : Keeps j (keys ++ more) := by
  obtain ⟨k, hk, hj⟩ := h
  exact ⟨k, List.mem_append_left more hk, hj⟩

theorem keeps_last {keys : List AvailKey} {k : AvailKey} (h : k.jobId = j) :
    Keeps j (keys ++ [k]) :=
  ⟨k, by simp, h⟩

theorem Keeps.settle {acc : Pruned} {k : AvailKey} {r : Except Fault Overdue}
    (h : Keeps j acc.survivors) : Keeps j (acc.settle k r).survivors := by
  match r with
  | .ok (.redated _) => exact h.append
  | .ok .retired => exact h
  | .ok .vanished => exact h
  | .error _ => exact h.append

theorem keeps_settle {acc : Pruned} {k : AvailKey} {r : Except Fault Overdue} (hk : k.jobId = j)
    (h : ∀ o, r = .ok o → ∃ k', o = .redated k' ∧ k'.jobId = j) :
    Keeps j (acc.settle k r).survivors := by
  cases r with
  | ok o =>
    obtain ⟨k', rfl, hk'⟩ := h o rfl
    exact keeps_last hk'
  | error e => exact keeps_last hk

theorem settleOverdueJob_spares {k : AvailKey} (hk : k.jobId ≠ j) :
    (settleOverdueJob ctx.catalog k ctx.now).Calls (Spares j) := by
  have hpath : ∀ d, ((QueuePath.avail ⟨k.jobId, d⟩).queued.map (·.jobId)) ≠ some j :=
    fun d h => hk (Option.some.inj h)
  exact settleOverdueJob_calls Spares.ending trivial (hpath k.expiresAt)
    (fun d _ => ⟨hpath k.expiresAt, hpath d⟩) trivial trivial

theorem expireOverdueJobs_judged {keys : List AvailKey}
    (hsame : ∀ k ∈ keys, ∀ k' ∈ keys, k.jobId = j → k'.jobId = j → k = k')
    (hpin : ∀ k ∈ keys, k.jobId = j → Pinned ctx j k w) (hw : Present j w) :
    Judged ctx plans₀ j (expireOverdueJobs ctx.catalog keys ctx.now)
      (fun r w => ∀ acc, r = .ok acc → Present j w ∧ (Keeps j keys → Keeps j acc.survivors)) w := by
  -- the job is kept already, or its entry is still to come and stands where it was listed
  let J (rest : List AvailKey) (acc : Pruned) (w : World) : Prop :=
    Present j w ∧ (Keeps j keys → Keeps j acc.survivors ∨ ∃ k ∈ rest, k.jobId = j ∧ Pinned ctx j k w)
  have hstable : ∀ rest acc v v', J rest acc v → Bears ctx plans₀ j v v' → J rest acc v' := by
    rintro rest acc v v' ⟨hv, hcase⟩ hb
    refine ⟨Present.steady.bears _ _ hv hb, fun hkeys => (hcase hkeys).imp_right ?_⟩
    rintro ⟨k, hk, hj, hp⟩
    exact ⟨k, hk, hj, Pinned.steady.bears _ _ hp hb⟩
  have hloop : Judged ctx plans₀ j (expireOverdueJobs ctx.catalog keys ctx.now)
      (fun r w => ∀ acc, r = .ok acc → J [] acc w) w := by
    refine .foldlM_rest hstable ?_ ⟨hw, fun ⟨k, hk, hj⟩ => .inr ⟨k, hk, hj, hpin k hk hj⟩⟩
    · intro k rest acc v hsuf hv
      have hk : k ∈ keys := hsuf.subset List.mem_cons_self
      split
      · intro v' hb acc' hacc
        cases hacc
        refine ⟨Present.steady.bears _ _ hv.1 hb, fun hkeys => ?_⟩
        obtain hkept | ⟨k', hk', hj, hp⟩ := hv.2 hkeys
        · exact .inl hkept.append
        · obtain rfl | hk' := List.mem_cons.mp hk'
          · exact .inl (keeps_last hj)
          · exact .inr ⟨k', hk', hj, Pinned.steady.bears _ _ hp hb⟩
      · next hexp =>
        have hexp : k.expiresAt.isExpired ctx.now := by simpa using hexp
        -- an outcome that keeps what has to be kept closes the round
        have hround : ∀ {Q : Except Fault Overdue → World → Prop},
            Judged ctx plans₀ j (settleOverdueJob ctx.catalog k ctx.now) Q v →
            (∀ r v, Q r v → J rest (acc.settle k r) v) →
            Judged ctx plans₀ j ((settleOverdueJob ctx.catalog k ctx.now).attempt.bind fun r =>
              pure (acc.settle k r)) (fun r w => ∀ acc', r = .ok acc' → J rest acc' w) v := by
          intro Q hQ hJ
          refine hQ.attempt_bind fun r v hv v' hb acc' hacc => ?_
          cases hacc
          exact hstable rest _ v v' (hJ r v hv) hb
        by_cases hdone : Keeps j keys → Keeps j acc.survivors
        · refine hround (settling_judged (settleOverdueJob_settling hexp) hv.1) fun r v hv => ?_
          exact ⟨hv, fun hkeys => .inl (hdone hkeys).settle⟩
        · obtain ⟨hkeys, hnot⟩ := Classical.not_imp.mp hdone
          obtain hkept | ⟨k', hk', hj, hp⟩ := hv.2 hkeys
          · exact absurd hkept hnot
          by_cases hkj : k.jobId = j
          · have hkk : k' = k := hsame k' (hsuf.subset hk') k hk hj hkj
            subst hkk
            obtain ⟨b, hb⟩ := hp hexp
            refine hround (settleOverdueJob_judged hkj hexp hb) fun r v hv => ?_
            exact ⟨hv.1, fun _ => .inl (keeps_settle hkj hv.2)⟩
          · have hrest : k' ∈ rest :=
              (List.mem_cons.mp hk').resolve_left fun he => hkj (he ▸ hj)
            have hA : Steady ctx plans₀ j fun w => Present j w ∧ Pinned ctx j k' w :=
              Present.steady.and Pinned.steady
            refine hround (hA.judged (settleOverdueJob_spares hkj) ⟨hv.1, hp⟩) fun r v hv => ?_
            exact ⟨hv.1, fun _ => .inr ⟨k', hrest, hj, hv.2⟩⟩
  refine hloop.mono (fun _ _ h => h) fun r v h acc hacc => ⟨(h acc hacc).1, fun hkeys => ?_⟩
  obtain hkept | ⟨k, hk, -⟩ := (h acc hacc).2 hkeys
  · exact hkept
  · cases hk

def Dooming (b : Json) : Prop := (unmatchableCause b).isSome ∨ (clientsOnlyRoster b).isSome

def Cached (j : JobId) (bodies : Bodies) (w : World) : Prop :=
  ∀ k b, bodies.lookup k = some b → k.jobId = j → Dooming b → At j w (.avail k) b

theorem steady_dooming {k : AvailKey} {b : Json} (h : Dooming b) :
    Steady ctx plans₀ j fun w => At j w (.avail k) b :=
  steady_removable (.inr h)

theorem Cached.steady {bodies : Bodies} : Steady ctx plans₀ j (Cached j bodies) := by
  constructor
  · exact fun w w' h hw k b hb hk hd => (steady_dooming hd).bears _ _ (h k b hb hk hd) hw
  · exact fun w w' hw h k b hb hk hd => hw _ b (h k b hb hk hd)

theorem Cached.insert {bodies : Bodies} {k : AvailKey} {b : Json} (h : Cached j bodies w)
    (hk : k.jobId = j → Dooming b → At j w (.avail k) b) : Cached j (bodies.insert k b) w := by
  intro k' b' hb hj hd
  rw [FileTree.lookup_write] at hb
  split at hb
  · next he =>
    subst he
    cases hb
    exact hk hj hd
  · exact h k' b' hb hj hd

theorem Present.at_avail {k : AvailKey} {b : Json} (h : Present j w) (hk : k.jobId = j)
    (hb : w.queue.files.lookup (.avail k) = some b) : At j w (.avail k) b := by
  obtain ⟨p, b', hp⟩ := h
  have hpath : QueuePath.avail k = p := hp.only _ (by simp [QueuePath.queued, hk]) (by simp [hb])
  subst hpath
  exact ⟨hp.job, hb, hp.only⟩

theorem cachedBody_judged {k : AvailKey} {bodies : Bodies} (hw : Present j w ∧ Cached j bodies w) :
    Judged ctx plans₀ j (cachedBody k bodies)
      (fun r w => (Present j w ∧ Cached j bodies w) ∧ ∀ body bodies', r = .ok (body, bodies') →
        Cached j bodies' w ∧ ∀ b, body = some b → k.jobId = j → Dooming b →
          At j w (.avail k) b) w := by
  have hA : Steady ctx plans₀ j fun w => Present j w ∧ Cached j bodies w :=
    Present.steady.and Cached.steady
  unfold cachedBody
  cases hcached : bodies.lookup k with
  | some b =>
    intro v hv
    have hat := hA.bears _ _ hw hv
    refine ⟨hat, fun body bodies' h => ?_⟩
    cases h
    refine ⟨hat.2, fun b' hb' hk hd => ?_⟩
    cases hb'
    exact hat.2 k b hcached hk hd
  | none =>
    have hread : Judged ctx plans₀ j (Op.queue (.read (.avail k)))
        (fun r w => (Present j w ∧ Cached j bodies w) ∧ ∀ b, r = .ok (some b) → k.jobId = j →
          Dooming b → At j w (.avail k) b) w := by
      have hask := hA.answered (c := .queue (.read (.avail k))) trivial hw
      refine hask.mono (fun _ _ h => h) fun r v hv => ⟨hv.1, fun b hb hk hd => ?_⟩
      obtain ⟨u, hu, hbody, hmove⟩ := hv.2 (some b) hb
      exact (steady_dooming hd).bears _ _ (hu.1.at_avail hk hbody.symm) hmove
    refine hread.bind (fun body v hv => ?_)
      fun e v hv v' hu => ⟨hA.bears _ _ hv.1 hu, fun _ _ h => by cases h⟩
    cases body with
    | none =>
      intro u hu
      have hat := hA.bears _ _ hv.1 hu
      refine ⟨hat, fun body bodies' h => ?_⟩
      cases h
      exact ⟨hat.2, fun b hb => by cases hb⟩
    | some b =>
      intro u hu
      have hat := hA.bears _ _ hv.1 hu
      have hkey : k.jobId = j → Dooming b → At j u (.avail k) b := fun hk hd =>
        (steady_dooming hd).bears _ _ (hv.2 b rfl hk hd) hu
      refine ⟨hat, fun body bodies' h => ?_⟩
      cases h
      exact ⟨hat.2.insert hkey, fun b' hb' => by cases hb'; exact hkey⟩

theorem resolveJobTerminal_spares {k : AvailKey} {body : Json} {source : FailureSource}
    (hk : k.jobId ≠ j) :
    (resolveJobTerminal ctx.catalog (.avail k) body source).Calls (Spares j) :=
  resolveJobTerminal_calls Spares.ending (.void (.store fun h => hk (Option.some.inj h)))

theorem removeOneIf_judged {cause : Json → Option FailureSource} {k : AvailKey} {bodies : Bodies}
    (hcause : ∀ b, (cause b).isSome → Dooming b) (hw : Present j w ∧ Cached j bodies w) :
    Judged ctx plans₀ j (removeOneIf cause ctx.catalog k bodies)
      (fun r w => ∀ x bodies', r = .ok (x, bodies') →
        (Present j w ∧ Cached j bodies' w) ∧ (k.jobId = j → x ≠ .ok true)) w := by
  have hA : ∀ bodies, Steady ctx plans₀ j fun w => Present j w ∧ Cached j bodies w := fun _ =>
    Present.steady.and Cached.steady
  -- a round that ends here without a removal
  have hkeep : ∀ (x : Except Fault Bool) bodies v, x ≠ .ok true →
      Present j v ∧ Cached j bodies v →
      Judged ctx plans₀ j (pure (x, bodies)) (fun r w => ∀ x bodies', r = .ok (x, bodies') →
        (Present j w ∧ Cached j bodies' w) ∧ (k.jobId = j → x ≠ .ok true)) v := by
    intro x bodies v hx hv u hu x' bodies' h
    cases h
    exact ⟨(hA bodies).bears _ _ hv hu, fun _ => hx⟩
  refine (cachedBody_judged hw).attempt_bind fun r v hv => ?_
  match r with
  | .error e => exact hkeep _ _ v (by simp) hv.1
  | .ok (none, bodies') => exact hkeep _ _ v (by simp) ⟨hv.1.1, (hv.2 _ _ rfl).1⟩
  | .ok (some b, bodies') =>
    have hstay : Present j v ∧ Cached j bodies' v := ⟨hv.1.1, (hv.2 _ _ rfl).1⟩
    simp only
    split
    · exact hkeep _ _ v (by simp) hstay
    · next source hsource =>
      by_cases hk : k.jobId = j
      · have hd : Dooming b := hcause b (by simp [hsource])
        have hat := (hv.2 _ _ rfl).2 b rfl hk hd
        refine (resolveJobTerminal_judged (steady_dooming hd) hat).attempt_bind fun r u hu => ?_
        obtain ⟨⟨e, rfl⟩, hat'⟩ := hu
        exact hkeep _ _ u (by simp [Except.map]) ((hA bodies').anchored v u (hat.carries hat') hstay)
      · refine ((hA bodies').judged (resolveJobTerminal_spares hk) hstay).attempt_bind
          fun r u hu u' hu' x bodies'' h => ?_
        cases h
        exact ⟨(hA bodies').bears _ _ hu hu', fun h => absurd h hk⟩

theorem Keeps.prune {acc : Pruned} {k : AvailKey} {r : Except Fault Bool}
    (h : Keeps j acc.survivors) : Keeps j (acc.prune k r).survivors := by
  match r with
  | .ok true => exact h
  | .ok false => exact h.append
  | .error _ => exact h.append

theorem keeps_prune {acc : Pruned} {k : AvailKey} {r : Except Fault Bool} (hk : k.jobId = j)
    (h : r ≠ .ok true) : Keeps j (acc.prune k r).survivors := by
  match r with
  | .ok true => exact absurd rfl h
  | .ok false => exact keeps_last hk
  | .error _ => exact keeps_last hk

theorem pruneEach_judged {remove : AvailKey → Bodies → Op (Except Fault Bool × Bodies)}
    {keys : List AvailKey} {bodies : Bodies}
    (hremove : ∀ k bodies w, Present j w ∧ Cached j bodies w →
      Judged ctx plans₀ j (remove k bodies) (fun r w => ∀ x bodies', r = .ok (x, bodies') →
        (Present j w ∧ Cached j bodies' w) ∧ (k.jobId = j → x ≠ .ok true)) w)
    (hw : Present j w ∧ Cached j bodies w) :
    Judged ctx plans₀ j (pruneEach remove keys bodies)
      (fun r w => ∀ acc, r = .ok acc → (Present j w ∧ Cached j acc.2 w) ∧
        (Keeps j keys → Keeps j acc.1.survivors)) w := by
  let J (rest : List AvailKey) (acc : Pruned × Bodies) (w : World) : Prop :=
    (Present j w ∧ Cached j acc.2 w) ∧ (Keeps j keys → Keeps j acc.1.survivors ∨ Keeps j rest)
  have hstable : ∀ rest acc v v', J rest acc v → Bears ctx plans₀ j v v' → J rest acc v' :=
    fun rest acc v v' h hb => ⟨(Present.steady.and Cached.steady).bears _ _ h.1 hb, h.2⟩
  have hloop : Judged ctx plans₀ j (pruneEach remove keys bodies)
      (fun r w => ∀ acc, r = .ok acc → J [] acc w) w := by
    refine .foldlM_rest hstable (fun k rest acc v _ hv => ?_) ⟨hw, .inr⟩
    refine (hremove k acc.2 v hv.1).bind (fun r u hu => ?_) fun e _ _ _ _ _ h => by cases h
    refine fun u' hu' acc' hacc => hstable rest acc' u u' ?_ hu'
    cases hacc
    obtain ⟨hkept, hk⟩ := hu r.1 r.2 rfl
    refine ⟨hkept, fun hkeys => ?_⟩
    obtain hdone | ⟨k', hk', hj⟩ := hv.2 hkeys
    · exact .inl hdone.prune
    · obtain rfl | hk' := List.mem_cons.mp hk'
      · exact .inl (keeps_prune hj (hk hj))
      · exact .inr ⟨k', hk', hj⟩
  refine hloop.mono (fun _ _ h => h) fun r v h acc hacc => ⟨(h acc hacc).1, fun hkeys => ?_⟩
  obtain hkept | ⟨k, hk, -⟩ := (h acc hacc).2 hkeys
  · exact hkept
  · cases hk

theorem retireUnmatchableJobs_judged {keys : List AvailKey} {bodies : Bodies}
    (hw : Present j w ∧ Cached j bodies w) :
    Judged ctx plans₀ j (retireUnmatchableJobs ctx.catalog keys bodies)
      (fun r w => ∀ acc, r = .ok acc → (Present j w ∧ Cached j acc.2 w) ∧
        (Keeps j keys → Keeps j acc.1.survivors)) w :=
  pruneEach_judged (fun _ _ _ hw => removeOneIf_judged (fun _ h => .inl h) hw) hw

theorem allDeniedCause_dooming {denied : List ClientId} {b : Json}
    (h : (allDeniedCause denied b).isSome) : Dooming b := by
  unfold allDeniedCause at h
  split at h
  · cases h
  · next roster hroster => exact .inr (by simp [hroster])

theorem escalateAllDeniedJobs_judged {keys : List AvailKey} {bodies : Bodies}
    (hw : Present j w ∧ Cached j bodies w) :
    Judged ctx plans₀ j (escalateAllDeniedJobs ctx.catalog keys bodies)
      (fun r w => ∀ acc, r = .ok acc → (Present j w ∧ Cached j acc.2 w) ∧
        (Keeps j keys → Keeps j acc.1.survivors)) w := by
  have hA : ∀ bodies, Steady ctx plans₀ j fun w => Present j w ∧ Cached j bodies w := fun _ =>
    Present.steady.and Cached.steady
  have hlist : (Op.notes .listAllDenied).Calls (Spares j) := .store trivial
  refine ((hA bodies).judged hlist hw).bind (fun denied v hv => ?_)
    fun e _ _ _ _ _ h => by cases h
  refine pruneEach_judged (fun k bodies w hw => ?_) hv
  split
  · intro u hu x bodies' h
    cases h
    exact ⟨(hA bodies).bears _ _ hw hu, fun _ h => by cases h⟩
  · exact removeOneIf_judged (fun _ => allDeniedCause_dooming) hw

/-- While a plan that lists the job owes teardown, no device moves it. -/
theorem steady_owes {p : QueuePath} {b : Json} (h : OwesTeardown ctx plans₀ j) :
    Steady ctx plans₀ j fun w => At j w p b := by
  constructor
  · intro w w' hp hw
    obtain ⟨p', h', -, hmove⟩ := hw.2 _ b hp
    by_cases hp' : p' = p
    · exact hp' ▸ h'
    · exact absurd h (hmove hp').1
  · exact fun w w' hw hp => hw _ b hp

def Clears (j : JobId) (c : StoreCall) : Prop := Spares j c ∨ ∃ p, c = .queue (.remove p)

theorem Steady.clears_judged {p : QueuePath} {b : Json} {q : Op α}
    (hA : Steady ctx plans₀ j fun w => At j w p b) (hq : q.Calls (Clears j)) (hw : At j w p b) :
    Judged ctx plans₀ j q (fun _ w => At j w p b) w := by
  refine .invariant hA.bears (fun c v hc hv => ⟨?_, fun r v' hout => ?_⟩) hq hw
  · obtain hc | ⟨p, rfl⟩ := hc
    · exact hc.latching
    · rintro m ⟨⟩
  · obtain hc | ⟨q, rfl⟩ := hc
    · exact hc.at hout.1 hv
    · obtain hsame | ⟨c', hc', hstep⟩ := faulty_queue hout.1
      · exact hv.frame hsame
      · cases hc'
        have hkeeps : (QueueCall.remove q).KeepsJobs := trivial
        obtain ⟨p', hp', rfl⟩ := hkeeps.atMoved hstep hout.2 hv
        exact hp'

theorem spares_teardown {j' : JobId} {p : PlanId} (hne : j' ≠ j) :
    AllowsTeardown (Spares j) j' p := by
  have hpath : ∀ d, ((QueuePath.avail ⟨j', d⟩).queued.map (·.jobId)) ≠ some j :=
    fun d h => hne (Option.some.inj h)
  refine ⟨trivial, fun _ => trivial, trivial, fun d => ⟨trivial, hpath d⟩, fun l hl => ⟨trivial, ?_⟩,
    fun d body => ⟨trivial, ?_, hpath d⟩, trivial⟩
  · exact fun h => hne (hl ▸ Option.some.inj h)
  · rintro ⟨⟩

theorem At.listAvailOf {k : AvailKey} {b : Json} (h : At j w (.avail k) b) :
    ∃ rest, ((QueueCall.listAvailOf j).step w.queue).1 = k.expiresAt :: rest := by
  have hk : k.jobId = j := Option.some.inj h.job
  have hmem : k ∈ w.queue.availKeys.filter (·.jobId = j) := by
    simp [QueueState.mem_availKeys, h.here, hk]
  have hall : ∀ k' ∈ w.queue.availKeys.filter (·.jobId = j), k' = k := by
    intro k' hk'
    simp only [List.mem_filter, decide_eq_true_eq, QueueState.mem_availKeys] at hk'
    exact QueuePath.avail.inj (h.only (.avail k') (congrArg some hk'.2) hk'.1)
  cases hlist : w.queue.availKeys.filter (·.jobId = j) with
  | nil => simp [hlist] at hmem
  | cons k' rest =>
    have hk' : k' = k := hall k' (by simp [hlist])
    exact ⟨rest.map (·.expiresAt), by simp [QueueCall.step, hlist, hk']⟩

theorem deleteAvailByJob_fails {k : AvailKey} {b : Json}
    (hA : Steady ctx plans₀ j fun w => At j w (.avail k) b) (hw : At j w (.avail k) b) :
    Judged ctx plans₀ j (deleteAvailByJob j)
      (fun r w => (∃ e, r = .error e) ∧ At j w (.avail k) b) w := by
  have hlist := hA.answered (c := .queue (.listAvailOf j)) trivial hw
  refine hlist.bind (fun ds v hv => ?_) fun e _ hv _ hu => ⟨⟨e, rfl⟩, hA.bears _ _ hv.1 hu⟩
  obtain ⟨hat, hds⟩ := hv
  obtain ⟨u, hu, rfl, -⟩ := hds ds rfl
  obtain ⟨rest, hrest⟩ := hu.listAvailOf
  have hanswer : (machine (.queue (.listAvailOf j)) u).1 = k.expiresAt :: rest := hrest
  have hkey : (⟨j, k.expiresAt⟩ : AvailKey) = k := by rw [← Option.some.inj hat.job]
  have hfirst : Judged ctx plans₀ j (Op.queue (.remove (.avail ⟨j, k.expiresAt⟩)))
      (fun r w => (∃ e, r = .error e) ∧ At j w (.avail k) b) v := by
    rw [hkey]
    exact remove_judged hA hat
  rw [hanswer]
  exact Judged.fails_bind hA (Judged.fails_bind hA hfirst)

def ReadFrom (entry : Option AvailKey) (held : List Lease) (p : QueuePath) : Prop :=
  (∃ k, entry = some k ∧ p = .avail k) ∨
    entry = none ∧ ∃ l rest, held = l :: rest ∧ p = .leased l

section EndMembership

variable {p : QueuePath} {b : Json} {entry : Option AvailKey} {held : List Lease}

theorem retireJob_fails (hA : Steady ctx plans₀ j fun w => At j w p b) (hw : At j w p b)
    (hp : ReadFrom entry held p) :
    Judged ctx plans₀ j (retireJob j entry.isSome held)
      (fun r w => (∃ e, r = .error e) ∧ At j w p b) w := by
  obtain ⟨k, rfl, rfl⟩ | ⟨rfl, l, rest, rfl, rfl⟩ := hp
  · exact Judged.fails_bind hA (deleteAvailByJob_fails hA hw)
  · exact Judged.fails_bind hA (Judged.fails_bind hA (remove_judged hA hw))

theorem read_found {q : QueuePath} (hA : Steady ctx plans₀ j fun w => At j w p b)
    (hq : q.queued.map (·.jobId) = some j) (hw : At j w p b) :
    Judged ctx plans₀ j (Op.queue (.read q))
      (fun r w => At j w p b ∧ ∀ a, r = .ok (some a) → q = p) w := by
  have hread := hA.answered (c := .queue (.read q)) trivial hw
  refine hread.mono (fun _ _ h => h) fun r v hv => ⟨hv.1, fun a ha => ?_⟩
  obtain ⟨u, hu, hfound, -⟩ := hv.2 (some a) ha
  exact hu.only q hq (Option.isSome_iff_exists.mpr ⟨a, hfound.symm⟩)

theorem bodyToRestore_judged (hA : Steady ctx plans₀ j fun w => At j w p b)
    (hentry : ∀ k, entry = some k → k.jobId = j) (hheld : ∀ l ∈ held, l.jobId = j)
    (hsome : ¬ (entry = none ∧ held = [])) (hw : At j w p b) :
    Judged ctx plans₀ j (bodyToRestore j entry held)
      (fun r w => At j w p b ∧ ∀ x, r = .ok x → ∃ d body, x = some (d, body) ∧
        (body.isSome → ReadFrom entry held p)) w := by
  -- a read at one of the job's paths, with its result paired to a deadline
  have hread : ∀ (q : QueuePath) (d : ExpiresAt), q.queued.map (·.jobId) = some j →
      (q = p → ReadFrom entry held p) →
      Judged ctx plans₀ j ((Op.queue (.read q)).bind fun body => pure (some (d, body)))
        (fun r w => At j w p b ∧ ∀ x, r = .ok x → ∃ d body, x = some (d, body) ∧
          (body.isSome → ReadFrom entry held p)) w := by
    intro q d hq hfrom
    refine (read_found hA hq hw).bind (fun body v hv u hu => ?_)
      fun e v hv u hu => ⟨hA.bears _ _ hv.1 hu, fun x hx => by cases hx⟩
    refine ⟨hA.bears _ _ hv.1 hu, fun x hx => ?_⟩
    cases hx
    refine ⟨d, body, rfl, fun hbody => ?_⟩
    obtain ⟨a, rfl⟩ := Option.isSome_iff_exists.mp hbody
    exact hfrom (hv.2 a rfl)
  cases entry with
  | some k =>
    have hk : (⟨j, k.expiresAt⟩ : AvailKey) = k := by rw [← hentry k rfl]
    exact hread (.avail ⟨j, k.expiresAt⟩) k.expiresAt rfl fun hp => .inl ⟨k, rfl, by rw [← hp, hk]⟩
  | none =>
    cases held with
    | nil => exact absurd ⟨rfl, rfl⟩ hsome
    | cons l rest =>
      have hl : (QueuePath.leased l).queued.map (·.jobId) = some j :=
        congrArg some (hheld l List.mem_cons_self)
      exact hread (.leased l) l.expiresAt hl fun hp => .inr ⟨rfl, l, rest, rfl, hp.symm⟩

theorem endMembership_judged {plan : PlanId} (howes : OwesTeardown ctx plans₀ j)
    (hentry : ∀ k, entry = some k → k.jobId = j) (hheld : ∀ l ∈ held, l.jobId = j)
    (hsome : ¬ (entry = none ∧ held = [])) (hw : At j w p b) :
    Judged ctx plans₀ j (endMembership plan j entry held)
      (fun r w => At j w p b ∧ r ≠ .ok .retired) w := by
  have hA : Steady ctx plans₀ j fun w => At j w p b := steady_owes howes
  have herror : ∀ e v, At j v p b → ∀ u, Bears ctx plans₀ j v u →
      At j u p b ∧ (Except.error e : Except Fault JobFate) ≠ .ok .retired :=
    fun e v hv u hu => ⟨hA.bears _ _ hv hu, nofun⟩
  have hkept : ∀ fate v, fate ≠ JobFate.retired → At j v p b →
      Judged ctx plans₀ j (pure fate) (fun r w => At j w p b ∧ r ≠ .ok .retired) v :=
    fun fate v hfate hv u hu => ⟨hA.bears _ _ hv hu, fun h => hfate (Except.ok.inj h)⟩
  have hmarkers : (Op.plans (.listJobPlanMarkers j)).Calls (Spares j) := .store trivial
  refine (hA.judged (dropMembership_calls trivial fun _ => trivial) hw).bind
    (fun _ v hv => ?_) herror
  refine (hA.judged hmarkers hv).bind (fun remaining v hv => ?_) herror
  split
  · exact hkept _ v nofun hv
  refine (bodyToRestore_judged hA hentry hheld hsome hv).bind (fun x v hv => ?_)
    fun e v hv => herror e v hv.1
  obtain ⟨hat, hx⟩ := hv
  obtain ⟨d, body, rfl, hfrom⟩ := hx x rfl
  cases body with
  | some body =>
    refine (retireJob_fails hA hat (hfrom rfl)).bind (fun _ v hv => ?_) fun e v hv => herror e v hv.2
    obtain ⟨⟨e, he⟩, -⟩ := hv
    cases he
  | none =>
    have hretire : (retireJob j entry.isSome held).Calls (Clears j) :=
      retireJob_calls (.inl trivial) (fun d => .inr ⟨_, rfl⟩) fun l _ => .inr ⟨_, rfl⟩
    have hflag : (Op.index (.writePendingReindexJob j)).Calls (Spares j) := .store trivial
    refine (hA.clears_judged hretire hat).bind (fun _ v hv => ?_) herror
    refine (hA.judged hmarkers hv).bind (fun joiners v hv => ?_) herror
    refine (hA.judged hflag hv).bind (fun _ v hv => ?_) herror
    split <;> exact hkept _ v nofun hv

end EndMembership

section Plans

variable {membership : List JobPlanMarker} {avail : List AvailKey} {leases : List Lease}
  {F : World → Prop}

theorem availByJob_jobId {k : AvailKey} {j' : JobId} (h : availByJob avail j' = some k) :
    k.jobId = j' := by
  have hmem := List.mem_of_getLast? h
  simpa using (List.mem_filter.mp hmem).2

theorem tearDownJob_judged {plan : PlanId} {acc : Teardown} {j' : JobId}
    (hF : Steady ctx plans₀ j F) (hhere : ∀ w, F w → Present j w)
    (howes : j' = j → OwesTeardown ctx plans₀ j) (hw : F w ∧ j ∉ acc.retired) :
    Judged ctx plans₀ j (tearDownJob membership avail leases plan acc j')
      (fun r w => ∀ acc', r = .ok acc' → F w ∧ j ∉ acc'.retired) w := by
  have hdone : ∀ (acc' : Teardown) v, F v → j ∉ acc'.retired →
      Judged ctx plans₀ j (pure acc') (fun r w => ∀ acc', r = .ok acc' → F w ∧ j ∉ acc'.retired) v := by
    intro acc' v hv hacc u hu acc'' h
    cases h
    exact ⟨hF.bears _ _ hv hu, hacc⟩
  unfold tearDownJob
  split
  · exact hdone acc w hw.1 hw.2
  extract_lets entry held
  split
  · exact hdone acc w hw.1 hw.2
  next hsome =>
  have hheld : ∀ l ∈ held, l.jobId = j' := fun l hl => by simpa using (List.mem_filter.mp hl).2
  have hend : Judged ctx plans₀ j (endMembership plan j' entry held)
      (fun r w => F w ∧ (j' = j → r ≠ .ok .retired)) w := by
    by_cases hj : j' = j
    · subst hj
      obtain ⟨p, b, hat⟩ := hhere w hw.1
      have hne : ¬ (entry = none ∧ held = []) := fun h => hsome (by simp [h.1, h.2])
      refine (endMembership_judged (howes rfl) (fun k => availByJob_jobId) hheld hne hat).mono
        (fun _ _ h => h) fun r v hv => ⟨hF.anchored w v (hat.carries hv.1) hw.1, fun _ => hv.2⟩
    · exact (hF.judged (endMembership_calls (spares_teardown hj) hheld) hw.1).mono
        (fun _ _ h => h) fun r v hv => ⟨hv, fun h => absurd h hj⟩
  refine hend.attempt_bind fun r v hv => ?_
  match r with
  | .ok .retired =>
    refine hdone _ v hv.1 fun hmem => ?_
    obtain rfl | hmem := Finset.mem_insert.mp hmem
    · exact hv.2 rfl rfl
    · exact hw.2 hmem
  | .ok (.released _) => exact hdone _ v hv.1 hw.2
  | .ok .alreadyGone => exact hdone _ v hv.1 hw.2
  | .error _ => exact hdone _ v hv.1 hw.2

theorem tearDownPlans_judged {manifests : List PlanManifest} {cancelMarkers : List PlanId}
    (hF : Steady ctx plans₀ j F) (hhere : ∀ w, F w → Present j w)
    (howes : ∀ m ∈ manifests, j ∈ m.jobIds →
      (teardownCause m cancelMarkers ctx.now ctx.settings.planCreatingMax).isSome →
      OwesTeardown ctx plans₀ j) (hw : F w) :
    Judged ctx plans₀ j
      (tearDownPlans manifests cancelMarkers membership avail leases ctx.now
        ctx.settings.planCreatingMax)
      (fun r w => ∀ out, r = .ok out → F w ∧ j ∉ out.retired ∧
        out.avail = avail.filter (·.jobId ∉ out.retired) ∧
        out.leased = leases.filter (·.jobId ∉ out.retired)) w := by
  unfold tearDownPlans
  extract_lets cause doomed stranded
  have hstable : ∀ (acc : Teardown) v v', (F v ∧ j ∉ acc.retired) → Bears ctx plans₀ j v v' →
      F v' ∧ j ∉ acc.retired := fun acc v v' h hb => ⟨hF.bears _ _ h.1 hb, h.2⟩
  have hloop : Judged ctx plans₀ j
      (doomed.foldlM (fun acc m =>
        m.jobIds.foldlM (tearDownJob membership avail leases m.planId) acc) ⟨∅, ∅, ∅, 0⟩)
      (fun r w => ∀ acc, r = .ok acc → F w ∧ j ∉ acc.retired) w := by
    refine .foldlM hstable (fun acc m hm v hv => ?_) ⟨hw, by simp⟩
    refine .foldlM hstable (fun acc j' hj' v hv => tearDownJob_judged hF hhere (fun he => ?_) hv) hv
    obtain ⟨hm, hcause⟩ := List.mem_filter.mp hm
    exact howes m hm (he ▸ hj') hcause
  refine hloop.bind (fun acc v hv u hu out hout => ?_) fun e v hv u hu out hout => by cases hout
  cases hout
  exact ⟨hF.bears _ _ (hv acc rfl).1 hu, (hv acc rfl).2, rfl, rfl⟩

theorem putPlan_judged {m : PlanManifest} (hF : Steady ctx plans₀ j F)
    (hlatch : Latching j (.plans (.putPlan m)) w) (hw : F w) :
    Judged ctx plans₀ j (Op.plans (.putPlan m)) (fun _ w => F w) w := by
  refine .store_any fun v hv => ⟨?_, ?_⟩
  · unfold Latching
    rw [hv.1]
    exact hlatch
  · rintro r v' ⟨hout, -⟩ u hu
    have hqueue : v'.queue = v.queue := by
      obtain hsame | ⟨c, hc, -⟩ := faulty_queue hout
      · exact hsame
      · cases hc
    refine hF.bears _ _ (hF.anchored v v' (fun p b hp => hp.frame hqueue) ?_) hu
    exact hF.bears _ _ hw hv

theorem recordOneLapse_judged {markers : List JobPlanMarker} {plan : PlanId} {j' : JobId}
    {horizon : Stamp} {now : Instant} (hF : Steady ctx plans₀ j F) (hw : F w) :
    Judged ctx plans₀ j (recordOneLapse markers plan j' horizon now) (fun _ w => F w) w := by
  have hget : Judged ctx plans₀ j (Op.plans (.getPlan plan))
      (fun r w => F w ∧ ∀ m, r = .ok (some m) → w.plans.manifests.lookup plan = some m) w := by
    have hask := hF.answered (c := .plans (.getPlan plan)) trivial hw
    refine hask.mono (fun _ _ h => h) fun r v hv => ⟨hv.1, fun m hm => ?_⟩
    obtain ⟨u, -, hfound, hmove⟩ := hv.2 (some m) hm
    rw [hmove.1]
    exact hfound.symm
  refine hget.bind (fun found v hv => ?_) fun e v hv u hu => hF.bears _ _ hv.1 hu
  cases found with
  | none => exact fun u hu => hF.bears _ _ hv.1 hu
  | some m =>
    obtain ⟨hv, hstored⟩ := hv
    have hdrop : ∀ (m' : PlanManifest) u, F u → Judged ctx plans₀ j
        ((((markers.filter fun mk => mk.planId = plan ∧ mk.jobId = j').map (·.expiresAt)).forM
          fun d => Op.plans (.deleteJobPlanMarker j' plan d)).bind fun _ => pure (some m'))
        (fun _ w => F w) u := fun m' u hu =>
      hF.judged (.bind (.forM fun d _ => .store trivial) fun _ => .ret _) hu
    have hput : ∀ m' : PlanManifest, m'.planId = m.planId → m'.status = m.status →
        Judged ctx plans₀ j (Op.plans (.putPlan m')) (fun _ w => F w) v := by
      intro m' hid hstatus
      refine putPlan_judged hF (fun m'' hm'' hcomplete _ => .inr ⟨m, ?_, ?_⟩) hv
      · cases hm''
        rw [hid, v.plans.filed plan m (hstored m rfl)]
        exact hstored m rfl
      · cases hm''
        exact hstatus.symm.trans hcomplete
    simp only
    split
    · refine (hput _ ?_ ?_).bind (fun _ u hu => hdrop _ u hu) fun e _ hv _ hu => hF.bears _ _ hv hu
      · split <;> rfl
      · split <;> rfl
    · exact hdrop _ v hv

theorem recordMemberLapse_judged {markers : List JobPlanMarker} {cancelMarkers : List PlanId}
    {stranded : Finset PlanId} {now : Instant} {creatingMaxAge : Nat} {acc : Lapses}
    {member : PlanId × JobId} (hF : Steady ctx plans₀ j F) (hw : F w) :
    Judged ctx plans₀ j
      (recordMemberLapse markers cancelMarkers stranded now creatingMaxAge acc member)
      (fun _ w => F w) w := by
  have hdone : ∀ (acc : Lapses) v, F v → Judged ctx plans₀ j (pure acc) (fun _ w => F w) v :=
    fun acc v hv u hu => hF.bears _ _ hv hu
  obtain ⟨plan, j'⟩ := member
  simp only [recordMemberLapse]
  split
  · split
    · exact hdone _ w hw
    · refine (hF.judged (hasRecord_calls fun _ => trivial) hw).attempt_bind fun found v hv => ?_
      match found with
      | .ok true => exact hdone _ v hv
      | .error _ => exact hdone _ v hv
      | .ok false =>
        simp only
        split
        · exact hdone _ v hv
        · refine (recordOneLapse_judged hF hv).attempt_bind fun r v hv => ?_
          match r with
          | .ok (some _) => exact hdone _ v hv
          | .ok none => exact hdone _ v hv
          | .error _ => exact hdone _ v hv
  · exact hdone _ w hw

theorem recordMemberLapses_judged {manifests : List PlanManifest} {markers : List JobPlanMarker}
    {cancelMarkers : List PlanId} {stranded : Finset PlanId} {now : Instant} {creatingMaxAge : Nat}
    (hF : Steady ctx plans₀ j F) (hw : F w) :
    Judged ctx plans₀ j
      (recordMemberLapses manifests markers cancelMarkers stranded now creatingMaxAge)
      (fun r w => ∀ out, r = .ok out → F w) w := by
  refine Prog.Sat.foldlM (J := fun _ w => F w) (fun _ v v' h hb => hF.bears v v' h hb) ?_ hw
  intro acc member _ v hv
  exact (recordMemberLapse_judged hF hv).mono (fun _ _ h => h) fun _ _ h _ _ => h

end Plans

end Judgement

end Pipette
