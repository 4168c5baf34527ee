import Pipette.Lib.Alone
import Pipette.System.OneEntry
import Pipette.Pipeline.Stages

/-! The passes of a run that nobody disturbs know what is in `avail/`: the keys one pass leaves to the
next are those on file. -/
namespace Pipette

open Prog

theorem filter_job_eq {keys : List AvailKey} {k : AvailKey} (hnodup : (keys.map (·.jobId)).Nodup)
    (hk : k ∈ keys) : keys.filter (·.jobId = k.jobId) = [k] := by
  obtain ⟨xs, rest, rfl⟩ := List.append_of_mem hk
  rw [List.map_append, List.map_cons, List.nodup_middle, List.nodup_cons] at hnodup
  have hnone : ∀ k' ∈ xs ++ rest, k'.jobId ≠ k.jobId := fun k' hk' hjob =>
    hnodup.1 (by rw [← hjob, ← List.map_append]; exact List.mem_map_of_mem hk')
  rw [List.filter_append, List.filter_cons_of_pos (by simp),
    List.filter_eq_nil_iff.mpr fun k' hk' => by simpa using hnone k' (by simp [hk']),
    List.filter_eq_nil_iff.mpr fun k' hk' => by simpa using hnone k' (by simp [hk'])]
  rfl

structure Shows (keys : List AvailKey) (w : World) : Prop where
  nodup : (keys.map (·.jobId)).Nodup
  mem : ∀ k, k ∈ keys ↔ (w.queue.files.lookup (.avail k)).isSome
  apart : ∀ k ∈ keys, ∀ l, (w.queue.files.lookup (.leased l)).isSome → l.jobId ≠ k.jobId

namespace Shows

variable {keys xs rest : List AvailKey} {k : AvailKey} {w w' : World}

theorem of_queue (h : Shows keys w) (hqueue : w'.queue = w.queue) : Shows keys w' := by
  refine ⟨h.nodup, ?_, ?_⟩ <;> rw [hqueue]
  · exact h.mem
  · exact h.apart

theorem of_oneEntry (h : w.queue.OneEntry) : Shows w.queue.availKeys w := by
  refine ⟨?_, fun k => QueueState.mem_availKeys, fun k hk l hl hjob => ?_⟩
  · refine List.Nodup.map_on (fun k hk k' hk' hjob => ?_) QueueState.nodup_availKeys
    obtain ⟨b, hb⟩ := Option.isSome_iff_exists.mp (QueueState.mem_availKeys.mp hk)
    obtain ⟨b', hb'⟩ := Option.isSome_iff_exists.mp (QueueState.mem_availKeys.mp hk')
    exact QueuePath.avail.inj (h _ _ k k' b b' ⟨rfl, hb⟩ ⟨rfl, hb'⟩ hjob)
  · obtain ⟨b, hb⟩ := Option.isSome_iff_exists.mp (QueueState.mem_availKeys.mp hk)
    obtain ⟨b', hb'⟩ := Option.isSome_iff_exists.mp hl
    cases h _ _ l.availKey k b' b ⟨rfl, hb'⟩ ⟨rfl, hb⟩ hjob

theorem eq_of_job {k' : AvailKey} (h : Shows keys w) (hk : k ∈ keys) (hk' : k' ∈ keys)
    (hjob : k.jobId = k'.jobId) : k = k' :=
  List.inj_on_of_nodup_map h.nodup hk hk' hjob

theorem notMem (h : Shows (xs ++ k :: rest) w) : k ∉ xs ++ rest := by
  have hnodup : (xs ++ k :: rest).Nodup := .of_map _ h.nodup
  rw [List.nodup_middle, List.nodup_cons] at hnodup
  exact hnodup.1

theorem remove (h : Shows (xs ++ k :: rest) w) :
    Shows (xs ++ rest) (machine (.queue (.remove (.avail k))) w).2 := by
  have hsub : ∀ k' ∈ xs ++ rest, k' ∈ xs ++ k :: rest := by
    intro k' hk'
    simp only [List.mem_append, List.mem_cons] at hk' ⊢
    tauto
  refine ⟨h.nodup.sublist (.map _ (.append (.refl _) (List.sublist_cons_self ..))), fun k' => ?_,
    fun k' hk' l hl => ?_⟩
  · simp only [machine, QueueCall.step, FileTree.lookup_remove]
    split
    · next heq =>
      cases heq
      simpa using h.notMem
    · next hne =>
      rw [← h.mem k', List.mem_append, List.mem_append, List.mem_cons]
      have hk' : k' ≠ k := fun heq => hne (congrArg _ heq)
      tauto
  · simp only [machine, QueueCall.step, FileTree.lookup_remove, reduceCtorEq, ite_false] at hl
    exact h.apart k' (hsub k' hk') l hl

theorem redate {d : ExpiresAt} (h : Shows (xs ++ k :: rest) w) :
    (machine (.queue (.rename (.avail k) (.avail ⟨k.jobId, d⟩))) w).1 = true ∧
      Shows (xs ++ ⟨k.jobId, d⟩ :: rest)
        (machine (.queue (.rename (.avail k) (.avail ⟨k.jobId, d⟩))) w).2 := by
  have hk : (w.queue.files.lookup (.avail k)).isSome := (h.mem k).mp (by simp)
  have hsame : ∀ k' ∈ xs ++ k :: rest, k'.jobId = k.jobId → k' = k :=
    fun k' hk' => h.eq_of_job hk' (by simp)
  simp only [machine, QueueState.step_rename]
  cases hmove : w.queue.files.rename (.avail k) (.avail ⟨k.jobId, d⟩) with
  | none =>
    rw [FileTree.rename_eq_none.mp hmove] at hk
    cases hk
  | some files =>
    refine ⟨rfl, by simpa using h.nodup, fun k' => ?_, fun k' hk' l hl => ?_⟩
    · simp only [FileTree.lookup_rename hmove, QueuePath.avail.injEq]
      split
      · next heq => simp [heq, hk]
      · next hne =>
        split
        · next heq =>
          subst heq
          have hnot := h.notMem
          simp only [List.mem_append, List.mem_cons] at hnot ⊢
          simp only [Option.isSome_none, Bool.false_eq_true, iff_false]
          tauto
        · next hk' =>
          rw [← h.mem k']
          simp only [List.mem_append, List.mem_cons]
          tauto
    · have hl' : (w.queue.files.lookup (.leased l)).isSome := by
        simpa [FileTree.lookup_rename hmove] using hl
      simp only [List.mem_append, List.mem_cons] at hk'
      obtain hk' | rfl | hk' := hk'
      · exact h.apart k' (by simp [hk']) l hl'
      · exact h.apart k (by simp) l hl'
      · exact h.apart k' (by simp [hk']) l hl'

theorem removeLease {l : Lease} (h : Shows keys w) :
    Shows keys (machine (.queue (.remove (.leased l))) w).2 := by
  refine ⟨h.nodup, fun k => ?_, fun k hk l' hl' => h.apart k hk l' ?_⟩
  · rw [h.mem k]
    simp [machine, QueueCall.step]
  · simp only [machine, QueueCall.step, FileTree.lookup_remove] at hl'
    split at hl'
    · cases hl'
    · exact hl'

theorem listAvailOf (h : Shows keys w) (hk : k ∈ keys) :
    (machine (.queue (.listAvailOf k.jobId)) w).1 = [k.expiresAt] := by
  have hmem : ∀ d, d ∈ (machine (.queue (.listAvailOf k.jobId)) w).1 ↔ d = k.expiresAt := by
    intro d
    rw [mem_listAvailOf, ← h.mem]
    constructor
    · exact fun hd => congrArg AvailKey.expiresAt (h.eq_of_job hd hk rfl)
    · rintro rfl
      exact hk
  exact List.perm_singleton.mp ((List.perm_ext_iff_of_nodup nodup_listAvailOf (by simp)).mpr
    fun d => by rw [hmem d]; simp)

theorem listAvailOf_nil {j : JobId} (h : Shows keys w) (hj : ∀ k ∈ keys, k.jobId ≠ j) :
    (machine (.queue (.listAvailOf j)) w).1 = [] := by
  refine List.eq_nil_iff_forall_not_mem.mpr fun d hd => ?_
  exact hj _ ((h.mem _).mpr (mem_listAvailOf.mp hd)) rfl

end Shows

def LeavesQueue : StoreCall → Prop
  | .queue (.remove _) | .queue (.rename _ _) | .queue (.writeTmp _ _) => False
  | _ => True

theorem LeavesQueue.queue {c : StoreCall} {w : World} (h : LeavesQueue c) :
    (machine c w).2.queue = w.queue := by
  cases c with
  | queue c => cases c <;> first | rfl | exact h.elim
  | _ => rfl

theorem LeavesQueue.shows {c : StoreCall} {w : World} {keys : List AvailKey} (h : LeavesQueue c)
    (hw : Shows keys w) : Shows keys (machine c w).2 :=
  hw.of_queue h.queue

section Pruning

variable {catalog : Catalog} {k : AvailKey} {xs rest keys : List AvailKey} {w : World} {bodies : Bodies}

theorem resolveJobTerminal_shows {body : Json} {source : FailureSource}
    (h : Shows (xs ++ k :: rest) w) :
    (resolveJobTerminal catalog (.avail k) body source).Alone machine (fun _ _ => True)
      (fun r w => (∀ a, r = .ok a → Shows (xs ++ rest) w) ∧
        ∀ e, r = .error e → Shows (xs ++ k :: rest) w) w := by
  have hdelete : ∀ (b : Bool) (w : World), Shows (xs ++ k :: rest) w →
      ((QueueEntry.avail k).delete.bind fun _ => Prog.ret b).Alone machine (fun _ _ => True)
        (fun r w => (∀ a, r = .ok a → Shows (xs ++ rest) w) ∧
          ∀ e, r = .error e → Shows (xs ++ k :: rest) w) w :=
    fun b w hw => ⟨trivial, fun _ _ => hw.remove, nofun⟩
  have hkeep : ∀ (c : StoreCall) (w : World), LeavesQueue c → Shows (xs ++ k :: rest) w →
      Shows (xs ++ k :: rest) (machine c w).2 := fun _ _ hc hw => hc.shows hw
  have hrecord : (hasRecord k.jobId).Calls LeavesQueue := hasRecord_calls fun _ => trivial
  have hfail : (recordSystemFailure catalog body source).Calls LeavesQueue :=
    recordSystemFailure_calls ⟨fun _ _ => trivial, fun _ _ => trivial⟩
  refine Alone.bind (((Alone.invariant hkeep hrecord h)).mono (fun _ _ _ => trivial) fun _ _ h => h)
    (fun found w hw => ?_) fun e w hw => ⟨nofun, fun _ _ => hw⟩
  cases found with
  | true => exact hdelete false w hw
  | false =>
    refine Alone.attempt_bind ((Alone.invariant hkeep hfail hw).mono (fun _ _ _ => trivial) fun _ _ h => h)
      fun r w hw => ?_
    match r with
    | .ok created => exact hdelete created w hw
    | .error e =>
      cases e with
      | unrecordable => exact hdelete false w hw
      | _ => exact ⟨nofun, fun _ _ => hw⟩

theorem expireOneJob_shows (h : Shows (xs ++ k :: rest) w) :
    (expireOneJob catalog k).Alone machine (fun _ _ => True)
      (fun r w => (∀ a, r = .ok a → a = true ∧ Shows (xs ++ rest) w) ∧
        ∀ e, r = .error e → Shows (xs ++ k :: rest) w) w := by
  obtain ⟨body, hbody⟩ := Option.isSome_iff_exists.mp ((h.mem k).mp (by simp))
  refine .store_bind trivial ?_
  rw [show (machine (.queue (.read (.avail k))) w).1 = some body from hbody]
  refine Alone.bind (resolveJobTerminal_shows h) (fun _ w hw => ?_) fun e w hw => ?_
  · exact ⟨fun a ha => ⟨(Except.ok.inj ha).symm, hw.1 _ rfl⟩, nofun⟩
  · exact ⟨nofun, fun _ _ => hw.2 e rfl⟩

theorem settleOverdueJob_shows {now : Instant} {acc : Pruned}
    (h : Shows (acc.survivors ++ k :: rest) w) :
    (settleOverdueJob catalog k now).Alone machine (fun _ _ => True)
      (fun r w => Shows ((acc.settle k r).survivors ++ rest) w) w := by
  refine .store_bind trivial ?_
  split
  · refine .bind (expireOneJob_shows h) (fun found w hw => ?_) fun e w hw => ?_
    · obtain ⟨rfl, hgone⟩ := hw.1 found rfl
      exact hgone
    · have hstays := hw.2 e rfl
      simpa [Pruned.settle, Pruned.failed, Pruned.keep] using hstays
  · next horizon _ =>
    obtain ⟨hmoved, hshows⟩ := Shows.redate (d := horizon) h
    refine .store_bind trivial ?_
    have hkept : Shows ((acc.keep ⟨k.jobId, horizon⟩).survivors ++ rest)
        (machine (.queue (.rename (.avail k) (.avail ⟨k.jobId, horizon⟩))) w).2 := by
      simpa [Pruned.keep] using hshows
    change Alone machine _ (if (machine (.queue (.rename (.avail k) (.avail ⟨k.jobId, horizon⟩))) w).1
      then _ else _) _ _
    rw [if_pos hmoved]
    exact .store_bind trivial (hkept.of_queue rfl)

theorem expireOverdueJobs_shows {now : Instant} (h : Shows keys w) :
    (expireOverdueJobs catalog keys now).Yields machine (fun out w => Shows out.survivors w) w := by
  have hloop := Yields.foldlM_rest (m := machine) (b := Pruned.start) keys
    (f := fun acc k => if !k.expiresAt.isExpired now then pure (acc.keep k)
      else (settleOverdueJob catalog k now).attempt.bind fun r => pure (acc.settle k r))
    (J := fun rest (acc : Pruned) w => Shows (acc.survivors ++ rest) w) ?_ h
  · refine hloop.mono fun out w hw => ?_
    simpa using hw
  · intro k rest acc w hw
    split
    · refine .ret ?_
      simpa [Pruned.keep] using hw
    · exact .attempt_bind (settleOverdueJob_shows hw) fun r w hw => .ret hw

theorem pruneEach_shows {remove : AvailKey → Bodies → Op (Except Fault Bool × Bodies)}
    (hremove : ∀ (xs rest : List AvailKey) k bodies w, Shows (xs ++ k :: rest) w →
      (remove k bodies).Yields machine (fun out w =>
        (out.1 = .ok true → Shows (xs ++ rest) w) ∧ (out.1 ≠ .ok true → Shows (xs ++ k :: rest) w)) w)
    (h : Shows keys w) :
    (pruneEach remove keys bodies).Yields machine (fun out w => Shows out.1.survivors w) w := by
  have hloop := Yields.foldlM_rest (m := machine) (b := (Pruned.start, bodies)) keys
    (f := fun acc k => (remove k acc.2).bind fun out => pure (acc.1.prune k out.1, out.2))
    (J := fun rest (acc : Pruned × Bodies) w => Shows (acc.1.survivors ++ rest) w) ?_ h
  · refine hloop.mono fun out w hw => ?_
    simpa using hw
  · intro k rest acc w hw
    refine (hremove acc.1.survivors rest k acc.2 w hw).bind fun out w hout => .ret ?_
    obtain ⟨r, bodies⟩ := out
    match r with
    | .ok true => exact hout.1 rfl
    | .ok false => simpa [Pruned.prune, Pruned.keep] using hout.2 (by simp)
    | .error e => simpa [Pruned.prune, Pruned.failed, Pruned.keep] using hout.2 (by simp)

theorem removeOneIf_shows {cause : Json → Option FailureSource} (h : Shows (xs ++ k :: rest) w) :
    (removeOneIf cause catalog k bodies).Yields machine (fun out w =>
      (out.1 = .ok true → Shows (xs ++ rest) w) ∧ (out.1 ≠ .ok true → Shows (xs ++ k :: rest) w)) w := by
  have hcached : (cachedBody k bodies).Alone machine (fun _ _ => True)
      (fun _ w => Shows (xs ++ k :: rest) w) w :=
    (Alone.invariant (fun _ _ hc hw => LeavesQueue.shows hc hw) (cachedBody_calls trivial) h).mono
      (fun _ _ _ => trivial) fun _ _ h => h
  refine .attempt_bind hcached fun r w hw => ?_
  match r with
  | .error e => exact .ret ⟨nofun, fun _ => hw⟩
  | .ok (none, bodies) => exact .ret ⟨nofun, fun _ => hw⟩
  | .ok (some body, bodies) =>
    cases hcause : cause body with
    | none => simpa only [hcause] using .ret ⟨nofun, fun _ => hw⟩
    | some source =>
      simp only [hcause]
      refine .attempt_bind (resolveJobTerminal_shows hw) fun r w hw => .ret ?_
      cases r with
      | ok a => exact ⟨fun _ => hw.1 a rfl, fun hne => (hne rfl).elim⟩
      | error e => exact ⟨nofun, fun _ => hw.2 e rfl⟩

theorem retireUnmatchableJobs_shows (h : Shows keys w) :
    (retireUnmatchableJobs catalog keys bodies).Yields machine
      (fun out w => Shows out.1.survivors w) w :=
  pruneEach_shows (fun _ _ _ _ _ hw => removeOneIf_shows hw) h

theorem escalateAllDeniedJobs_shows (h : Shows keys w) :
    (escalateAllDeniedJobs catalog keys bodies).Yields machine
      (fun out w => Shows out.1.survivors w) w := by
  refine .store_bind (pruneEach_shows (fun xs rest k bodies w hw => ?_) h)
  split
  · exact .ret ⟨nofun, fun _ => hw⟩
  · exact removeOneIf_shows hw

end Pruning

section Teardown

variable {j : JobId} {p : PlanId} {keys : List AvailKey} {held : List Lease} {w : World}

theorem Shows.filter_of_absent (h : ∀ k ∈ keys, k.jobId ≠ j) : keys.filter (·.jobId ≠ j) = keys :=
  List.filter_eq_self.mpr fun k hk => by simpa using h k hk

theorem deleteAvailByJob_shows (h : Shows keys w) :
    (deleteAvailByJob j).Lands machine
      (fun _ w' => Shows (keys.filter (·.jobId ≠ j)) w' ∧ w'.plans = w.plans) w := by
  by_cases hj : ∃ k ∈ keys, k.jobId = j
  · obtain ⟨k, hk, rfl⟩ := hj
    obtain ⟨xs, rest, rfl⟩ := List.append_of_mem hk
    have hothers : (xs ++ k :: rest).filter (·.jobId ≠ k.jobId) = xs ++ rest := by
      have hrest : (xs ++ rest).filter (·.jobId ≠ k.jobId) = xs ++ rest :=
        Shows.filter_of_absent fun k' hk' hjob =>
          h.notMem (h.eq_of_job (by simp at hk' ⊢; tauto) hk hjob ▸ hk')
      rw [← hrest]
      simp
    rw [hothers]
    refine .store_bind ?_
    rw [h.listAvailOf hk]
    refine .bind (Q := fun _ w' => Shows (xs ++ rest) w' ∧ w'.plans = w.plans) ?_ fun _ w hw => .ret hw
    have hthere : (machine (.queue (.remove (.avail k))) w).1 = true := (h.mem k).mp hk
    refine .store_bind ?_
    change Lands machine (if (machine (.queue (.remove (.avail k))) w).1 then _ else _) _ _
    rw [if_pos hthere]
    exact .ret ⟨h.remove, rfl⟩
  · rw [Shows.filter_of_absent fun k hk hjob => hj ⟨k, hk, hjob⟩]
    refine .store_bind ?_
    rw [h.listAvailOf_nil fun k hk hjob => hj ⟨k, hk, hjob⟩]
    exact .ret ⟨h, rfl⟩

theorem retireJob_shows {inAvail : Bool} (h : Shows keys w)
    (habsent : inAvail = false → ∀ k ∈ keys, k.jobId ≠ j) :
    (retireJob j inAvail held).Lands machine
      (fun _ w' => Shows (keys.filter (·.jobId ≠ j)) w' ∧ w'.plans = w.plans) w := by
  have hleases : ∀ w₁ : World, Shows (keys.filter (·.jobId ≠ j)) w₁ ∧ w₁.plans = w.plans →
      (held.forM deleteLease).Lands machine
        (fun _ w' => Shows (keys.filter (·.jobId ≠ j)) w' ∧ w'.plans = w.plans) w₁ := by
    intro w₁ hw₁
    refine .forM_rest (J := fun _ w' => Shows (keys.filter (·.jobId ≠ j)) w' ∧ w'.plans = w.plans)
      (fun l rest w' _ hw' => ?_) hw₁
    exact .store_bind (.ret ⟨hw'.1.removeLease, hw'.2⟩)
  cases inAvail with
  | true => exact (deleteAvailByJob_shows h).bind fun _ w₁ hw₁ => hleases w₁ hw₁
  | false => exact hleases w ⟨(Shows.filter_of_absent (habsent rfl)).symm ▸ h, rfl⟩

theorem endMembership_shows {entry : Option AvailKey} (h : Shows keys w)
    (hentry : ∀ k ∈ keys, k.jobId = j → entry = some k) (hjob : ∀ k ∈ entry, k.jobId = j) :
    (endMembership p j entry held).Alone machine (fun _ _ => True)
      (fun r w => (r = .ok .retired → Shows (keys.filter (·.jobId ≠ j)) w) ∧
        (r ≠ .ok .retired → Shows keys w)) w := by
  have habsent : entry.isSome = false → ∀ k ∈ keys, k.jobId ≠ j := by
    intro hnone k hk hj
    rw [hentry k hk hj] at hnone
    cases hnone
  have hdrop : (dropMembership p j).Alone machine (fun _ _ => True) (fun _ w => Shows keys w) w :=
    (Alone.invariant (fun _ _ hc hw => LeavesQueue.shows hc hw)
      (dropMembership_calls trivial fun _ => trivial) h).mono (fun _ _ _ => trivial) fun _ _ h => h
  refine .bind hdrop (fun _ w hw => ?_) fun e w hw => ⟨nofun, fun _ => hw⟩
  refine .store_bind trivial ?_
  -- nobody joins between the two looks at the memberships
  split
  · exact ⟨nofun, fun _ => hw⟩
  next hnone =>
  have hbody : (bodyToRestore j entry held).Lands machine (fun found w' => w' = w ∧
      (found = none → keys.filter (·.jobId ≠ j) = keys) ∧
      ∀ d, found = some (d, none) → keys.filter (·.jobId ≠ j) = keys) w := by
    cases entry with
    | some k =>
      obtain rfl : k.jobId = j := hjob k rfl
      refine .store_bind (.ret ⟨rfl, nofun, fun d hd => ?_⟩)
      have hgone : w.queue.files.lookup (.avail k) = none := (Prod.ext_iff.mp (Option.some.inj hd)).2
      refine Shows.filter_of_absent fun k' hk' hjob => ?_
      have hthere := (hw.mem k').mp hk'
      rw [← Option.some.inj (hentry k' hk' hjob), hgone] at hthere
      cases hthere
    | none =>
      have hother := Shows.filter_of_absent (habsent rfl)
      cases held with
      | nil => exact .ret ⟨rfl, fun _ => hother, fun _ _ => hother⟩
      | cons l rest => exact .store_bind (.ret ⟨rfl, fun _ => hother, fun _ _ => hother⟩)
  refine .bind hbody.alone (fun found w₁ hfound => ?_) fun e w₁ hfound => ?_
  swap
  · obtain ⟨a, ha, -⟩ := hfound
    cases ha
  obtain ⟨found, ⟨⟩, rfl, hgone, hread⟩ := hfound
  match found with
  | none => exact ⟨fun _ => (hgone rfl).symm ▸ hw, fun hne => (hne rfl).elim⟩
  | some (d, body) =>
    refine .bind (retireJob_shows hw habsent).alone (fun _ w₂ hretired => ?_) fun e w₂ hretired => ?_
    swap
    · obtain ⟨a, ha, -⟩ := hretired
      cases ha
    obtain ⟨-, -, hshows, hplans⟩ := hretired
    refine .store_bind trivial ?_
    have hjoiners : (machine (.plans (.listJobPlanMarkers j)) w₂).1.isEmpty = true := by
      have hsame : (machine (.plans (.listJobPlanMarkers j)) w₂).1 =
          (machine (.plans (.listJobPlanMarkers j)) w₁).1 :=
        congrArg (fun plans => ((PlanCall.listJobPlanMarkers j).step plans).1) hplans
      rw [hsame]
      simpa using hnone
    cases body with
    | none =>
      refine .store_bind trivial ?_
      simp only [hjoiners]
      exact ⟨nofun, fun _ => hread d rfl ▸ hshows.of_queue rfl⟩
    | some body =>
      simp only [hjoiners]
      exact ⟨fun _ => hshows, fun hne => (hne rfl).elim⟩

theorem tearDownJob_shows {membership : List JobPlanMarker} {avail : List AvailKey}
    {leases : List Lease} {acc : Teardown} (havail : (avail.map (·.jobId)).Nodup)
    (h : Shows (avail.filter (·.jobId ∉ acc.retired)) w) :
    (tearDownJob membership avail leases p acc j).Yields machine
      (fun acc w => Shows (avail.filter (·.jobId ∉ acc.retired)) w) w := by
  unfold tearDownJob
  split
  · exact .ret h
  simp only
  split
  · exact .ret h
  have hentry : ∀ k ∈ avail.filter (·.jobId ∉ acc.retired), k.jobId = j → availByJob avail j = some k := by
    rintro k hk rfl
    rw [availByJob, filter_job_eq havail (List.mem_of_mem_filter hk)]
    rfl
  have hjob : ∀ k ∈ availByJob avail j, k.jobId = j := by
    intro k hk
    have hmem := List.mem_of_getLast? hk
    simpa using (List.mem_filter.mp hmem).2
  refine .attempt_bind (endMembership_shows h hentry hjob) fun r w hw => ?_
  match r with
  | .error e => exact .ret (hw.2 nofun)
  | .ok (.released n) => exact .ret (hw.2 nofun)
  | .ok .alreadyGone => exact .ret (hw.2 nofun)
  | .ok .retired =>
    have hshows := hw.1 rfl
    rw [List.filter_filter] at hshows
    refine .ret ?_
    simpa [and_comm] using hshows

theorem tearDownPlans_shows {manifests : List PlanManifest} {cancelMarkers : List PlanId}
    {membership : List JobPlanMarker} {leases : List Lease} {now : Instant} {creatingMaxAge : Nat}
    (h : Shows keys w) :
    (tearDownPlans manifests cancelMarkers membership keys leases now creatingMaxAge).Yields machine
      (fun out w => Shows out.avail w) w := by
  refine .bind (Q := fun (acc : Teardown) w => Shows (keys.filter (·.jobId ∉ acc.retired)) w) ?_
    fun acc w hw => .ret hw
  refine .foldlM_rest (J := fun _ (acc : Teardown) w => Shows (keys.filter (·.jobId ∉ acc.retired)) w) _
    (fun m _ acc w hw => ?_) (by simpa using h)
  exact .foldlM_rest (J := fun _ (acc : Teardown) w => Shows (keys.filter (·.jobId ∉ acc.retired)) w) _
    (fun j _ acc w hw => tearDownJob_shows h.nodup hw) hw

end Teardown

theorem queuePasses_shows {ctx : RunContext} {front : Front} {avail : List AvailKey}
    {leases : List Lease} {w : World} (h : Shows avail w) :
    (queuePasses ctx front avail leases).Yields machine
      (fun view w => Shows view.keys w ∧ ∀ k ∈ view.keys, k.jobId ∈ view.live) w := by
  refine .store_bind ((tearDownPlans_shows h).bind fun teardown w hw => ?_)
  refine .bind (.of_calls (fun _ _ hc hw => LeavesQueue.shows hc hw) (recordMemberLapses_calls
    (fun _ _ => trivial) (fun _ => trivial) (fun _ => trivial) fun _ _ _ => trivial) hw) fun lapses w hw => ?_
  refine (expireOverdueJobs_shows hw).bind fun expired w hw => ?_
  refine (retireUnmatchableJobs_shows hw).bind fun retired w hw => ?_
  refine (escalateAllDeniedJobs_shows hw).bind fun escalated w hw => .ret ⟨hw, fun k hk => ?_⟩
  exact Finset.mem_union_left _ (Finset.mem_union_left _ (List.mem_toFinset.mpr (List.mem_map_of_mem hk)))

end Pipette
