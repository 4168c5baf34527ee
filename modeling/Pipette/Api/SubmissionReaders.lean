import Mathlib.Logic.Function.Basic
import Pipette.Core.Client
import Pipette.Lib.Tree

/-! One submission body is read per device at a time. A request takes a handle on its device's
semaphore out of a map, waits for the one permit, and on its way out removes the entry that nobody
else has a handle on. -/
namespace Pipette

/-- Where a request stands. A permit that is released while requests wait is handed to one of them,
which runs on when it is next polled. -/
inductive TurnPhase
  | entered
  | queued
  | handed
  | reading
  /-- In `ReaderTurn::drop`: the lock is taken, the permit and the handle are given up. -/
  | dropping
deriving DecidableEq, Repr

structure TurnRequest where
  clientId : ClientId
  /-- The semaphore in its hands. -/
  device : Nat
  phase : TurnPhase
deriving DecidableEq, Repr

def TurnRequest.hasPermit (q : TurnRequest) : Bool :=
  q.phase = .handed || q.phase = .reading

def TurnRequest.hasHandle (q : TurnRequest) : Bool := q.phase ≠ .dropping

structure SubmissionReaders where
  devices : FileTree ClientId Nat
  /-- The semaphores whose permit nobody has. -/
  available : Nat → Bool
  fresh : Nat
  requests : FileTree Nat TurnRequest
  /-- The request in `ReaderTurn::drop`. -/
  locked : Option Nat

namespace SubmissionReaders

def empty : SubmissionReaders := ⟨∅, fun _ => false, 0, ∅, none⟩

def setPhase (s : SubmissionReaders) (r : Nat) (q : TurnRequest) (phase : TurnPhase) :
    SubmissionReaders :=
  { s with requests := s.requests.insert r { q with phase } }

def forget (s : SubmissionReaders) (r : Nat) : SubmissionReaders :=
  { s with requests := s.requests.erase r }

/-- `Arc::strong_count` of a semaphore in the map: the map's handle and those of the requests. -/
def strongCount (s : SubmissionReaders) (device : Nat) : Nat :=
  1 + (s.requests.entries.filter fun e => e.2.device = device && e.2.hasHandle).length

/-- Give up the permit of a semaphore, to a request that waits for it if there is one; which, is left
open. -/
def release (s : SubmissionReaders) (device : Nat) : Option Nat → Option SubmissionReaders
  | some w =>
    (s.requests.lookup w).bind fun q =>
      if q.device = device && q.phase = .queued then some (s.setPhase w q .handed) else none
  | none =>
    if s.requests.entries.any fun e => e.2.device = device && e.2.phase = .queued then none
    else some { s with available := Function.update s.available device true }

def enter (s : SubmissionReaders) (r : Nat) (c : ClientId) : Option SubmissionReaders :=
  if s.locked.isSome || (s.requests.lookup r).isSome then none
  else
    match s.devices.lookup c with
    | some device => some { s with requests := s.requests.insert r ⟨c, device, .entered⟩ }
    | none =>
      some { s with
        devices := s.devices.insert c s.fresh
        available := Function.update s.available s.fresh true
        fresh := s.fresh + 1
        requests := s.requests.insert r ⟨c, s.fresh, .entered⟩ }

def poll (s : SubmissionReaders) (r : Nat) : Option SubmissionReaders :=
  (s.requests.lookup r).bind fun q =>
    match q.phase with
    | .entered =>
      if s.available q.device then
        some { s.setPhase r q .reading with available := Function.update s.available q.device false }
      else some (s.setPhase r q .queued)
    | .handed => some (s.setPhase r q .reading)
    | .queued | .reading | .dropping => none

/-- The future of `turn` is dropped while it waits. A permit that it was handed goes on. -/
def cancel (s : SubmissionReaders) (r : Nat) (next : Option Nat) : Option SubmissionReaders :=
  (s.requests.lookup r).bind fun q =>
    match q.phase with
    | .entered | .queued => some (s.forget r)
    | .handed => (s.forget r).release q.device next
    | .reading | .dropping => none

def drop (s : SubmissionReaders) (r : Nat) (next : Option Nat) : Option SubmissionReaders :=
  (s.requests.lookup r).bind fun q =>
    if s.locked.isNone && q.phase = .reading then
      { s.setPhase r q .dropping with locked := some r }.release q.device next
    else none

/-- The rest of `ReaderTurn::drop`: the entry goes when only the map's handle is left. -/
def settle (s : SubmissionReaders) (r : Nat) : Option SubmissionReaders :=
  (s.requests.lookup r).bind fun q =>
    if s.locked = some r && q.phase = .dropping then
      let devices := if (s.devices.lookup q.clientId).any fun device => s.strongCount device = 1 then
          s.devices.erase q.clientId
        else s.devices
      some { s.forget r with devices, locked := none }
    else none

end SubmissionReaders

inductive TurnEvent
  | enter (r : Nat) (c : ClientId)
  | poll (r : Nat)
  | cancel (r : Nat) (next : Option Nat)
  | drop (r : Nat) (next : Option Nat)
  | settle (r : Nat)
deriving DecidableEq, Repr

namespace SubmissionReaders

def step (s : SubmissionReaders) : TurnEvent → Option SubmissionReaders
  | .enter r c => s.enter r c
  | .poll r => s.poll r
  | .cancel r next => s.cancel r next
  | .drop r next => s.drop r next
  | .settle r => s.settle r

def run : SubmissionReaders → List TurnEvent → Option SubmissionReaders
  | s, [] => some s
  | s, e :: rest => (s.step e).bind fun s => s.run rest

structure Orderly (s : SubmissionReaders) : Prop where
  entry : ∀ r q, s.requests.lookup r = some q → s.devices.lookup q.clientId = some q.device
  old : ∀ c device, s.devices.lookup c = some device → device < s.fresh
  apart : ∀ c c' device, s.devices.lookup c = some device → s.devices.lookup c' = some device →
    c = c'
  one : ∀ r r' q q', s.requests.lookup r = some q → s.requests.lookup r' = some q' →
    q.device = q'.device → q.hasPermit = true → q'.hasPermit = true → r = r'
  free : ∀ r q, s.requests.lookup r = some q → s.available q.device = true → q.hasPermit = false
  locked : ∀ r q, s.requests.lookup r = some q → q.phase = .dropping → s.locked = some r

variable {s s' : SubmissionReaders} {r : Nat} {c : ClientId} {next : Option Nat}

theorem Orderly.empty : Orderly SubmissionReaders.empty := by
  constructor <;> simp [SubmissionReaders.empty]

theorem Orderly.enter (h : Orderly s) (hstep : s.enter r c = some s') : Orderly s' := by
  unfold SubmissionReaders.enter at hstep
  obtain ⟨hentry, hold, hapart, hone, hfree, hlocked⟩ := h
  split at hstep
  · cases hstep
  split at hstep
  · cases hstep
    constructor <;> grind [FileTree.lookup_write, TurnRequest.hasPermit]
  · cases hstep
    constructor <;> grind [FileTree.lookup_write, TurnRequest.hasPermit, Function.update]

theorem Orderly.release (h : Orderly s) {device : Nat}
    (hnone : ∀ r q, s.requests.lookup r = some q → q.device = device → q.hasPermit = false)
    (htaken : s.available device = false) (hstep : s.release device next = some s') : Orderly s' := by
  obtain ⟨hentry, hold, hapart, hone, hfree, hlocked⟩ := h
  cases next with
  | some w =>
    obtain ⟨q, hq, hstep⟩ := Option.bind_eq_some_iff.mp hstep
    split at hstep
    · cases hstep
      constructor <;>
        grind [FileTree.lookup_write, SubmissionReaders.setPhase, TurnRequest.hasPermit]
    · cases hstep
  | none =>
    simp only [SubmissionReaders.release] at hstep
    split at hstep
    · cases hstep
    · cases hstep
      constructor <;> grind [Function.update]

theorem Orderly.forget (h : Orderly s) (r : Nat) : Orderly (s.forget r) := by
  obtain ⟨hentry, hold, hapart, hone, hfree, hlocked⟩ := h
  constructor <;> grind [FileTree.lookup_remove, SubmissionReaders.forget]

theorem Orderly.poll (h : Orderly s) (hstep : s.poll r = some s') : Orderly s' := by
  obtain ⟨hentry, hold, hapart, hone, hfree, hlocked⟩ := h
  obtain ⟨q, hq, hstep⟩ := Option.bind_eq_some_iff.mp hstep
  split at hstep
  · split at hstep <;> cases hstep
    · constructor <;>
        grind [FileTree.lookup_write, SubmissionReaders.setPhase, TurnRequest.hasPermit, Function.update]
    · constructor <;> grind [FileTree.lookup_write, SubmissionReaders.setPhase, TurnRequest.hasPermit]
  · cases hstep
    constructor <;> grind [FileTree.lookup_write, SubmissionReaders.setPhase, TurnRequest.hasPermit]
  all_goals cases hstep

theorem Orderly.cancel (h : Orderly s) (hstep : s.cancel r next = some s') : Orderly s' := by
  obtain ⟨q, hq, hstep⟩ := Option.bind_eq_some_iff.mp hstep
  split at hstep
  · cases hstep
    exact h.forget r
  · cases hstep
    exact h.forget r
  · next hphase =>
    have hpermit : q.hasPermit = true := by simp [TurnRequest.hasPermit, hphase]
    refine (h.forget r).release (fun r' q' hq' hdevice => ?_) ?_ hstep
    · rw [SubmissionReaders.forget, FileTree.lookup_remove] at hq'
      have := h.one r r' q q' hq
      grind
    · have := h.free r q hq
      grind [SubmissionReaders.forget]
  all_goals cases hstep

theorem Orderly.drop (h : Orderly s) (hstep : s.drop r next = some s') : Orderly s' := by
  obtain ⟨q, hq, hstep⟩ := Option.bind_eq_some_iff.mp hstep
  split at hstep
  · next hphase =>
    simp only [Bool.and_eq_true, Option.isNone_iff_eq_none, decide_eq_true_eq] at hphase
    have hpermit : q.hasPermit = true := by simp [TurnRequest.hasPermit, hphase.2]
    have hone := h.one r
    have hfree := h.free r q hq
    refine Orderly.release ?_ (fun r' q' hq' hdevice => ?_) ?_ hstep
    · obtain ⟨hentry, hold, hapart, hone, hfree, hlocked⟩ := h
      constructor <;>
        grind [FileTree.lookup_write, SubmissionReaders.setPhase, TurnRequest.hasPermit]
    · grind [FileTree.lookup_write, SubmissionReaders.setPhase, TurnRequest.hasPermit]
    · grind [SubmissionReaders.setPhase]
  · cases hstep

theorem strongCount_eq_one {device : Nat} (h : s.strongCount device = 1) {q : TurnRequest}
    (hq : s.requests.lookup r = some q) (hdevice : q.device = device) : q.hasHandle = false := by
  have hnil : (s.requests.entries.filter fun e => e.2.device = device && e.2.hasHandle) = [] := by
    rw [strongCount] at h
    exact List.length_eq_zero_iff.mp (by omega)
  have := List.filter_eq_nil_iff.mp hnil ⟨r, q⟩ (AList.mem_lookup_iff.mp hq)
  simpa [hdevice] using this

theorem exists_handle {device : Nat} (h : s.strongCount device ≠ 1) :
    ∃ r q, s.requests.lookup r = some q ∧ q.device = device ∧ q.hasHandle = true := by
  have hne : (s.requests.entries.filter fun e => e.2.device = device && e.2.hasHandle) ≠ [] := by
    intro hnil
    simp [strongCount, hnil] at h
  obtain ⟨e, he⟩ := List.exists_mem_of_ne_nil _ hne
  obtain ⟨hmem, hdevice⟩ := List.mem_filter.mp he
  exact ⟨e.1, e.2, AList.mem_lookup_iff.mpr hmem, by simpa using hdevice⟩

theorem Orderly.settle (h : Orderly s) (hstep : s.settle r = some s') : Orderly s' := by
  obtain ⟨q, hq, hstep⟩ := Option.bind_eq_some_iff.mp hstep
  split at hstep
  · next hphase =>
    simp only [Bool.and_eq_true, decide_eq_true_eq] at hphase
    cases hstep
    obtain ⟨hentry, hold, hapart, hone, hfree, hlocked⟩ := h
    split
    · next hcount =>
      -- a request that is left has a handle, and it is one on another entry
      rw [hentry r q hq, Option.any_some, decide_eq_true_eq] at hcount
      have hother : ∀ r' q', s.requests.lookup r' = some q' → r' ≠ r → q'.device ≠ q.device := by
        intro r' q' hq' hne hdevice
        have hhandle := strongCount_eq_one hcount hq' hdevice
        have hdropping : q'.phase = .dropping := by simpa [TurnRequest.hasHandle] using hhandle
        rw [hlocked r' q' hq' hdropping] at hphase
        exact hne (by simpa using hphase.1)
      constructor <;> grind [FileTree.lookup_remove, SubmissionReaders.forget]
    · constructor <;> grind [FileTree.lookup_remove, SubmissionReaders.forget]
  · cases hstep

theorem Orderly.step (h : Orderly s) {e : TurnEvent} (hstep : s.step e = some s') : Orderly s' := by
  cases e with
  | enter r c => exact h.enter hstep
  | poll r => exact h.poll hstep
  | cancel r next => exact h.cancel hstep
  | drop r next => exact h.drop hstep
  | settle r => exact h.settle hstep

theorem Orderly.run (h : Orderly s) {events : List TurnEvent} (hrun : s.run events = some s') :
    Orderly s' := by
  induction events generalizing s with
  | nil =>
    cases hrun
    exact h
  | cons e rest ih =>
    obtain ⟨next, hstep, hrun⟩ := Option.bind_eq_some_iff.mp hrun
    exact ih (h.step hstep) hrun

theorem release_eq {device : Nat} (hstep : s.release device next = some s') :
    s'.devices = s.devices ∧ ∀ r q, s.requests.lookup r = some q →
      ∃ q', s'.requests.lookup r = some q' ∧ q'.clientId = q.clientId := by
  cases next with
  | some w =>
    obtain ⟨q, hq, hstep⟩ := Option.bind_eq_some_iff.mp hstep
    split at hstep
    · cases hstep
      refine ⟨rfl, fun r q' hq' => ?_⟩
      simp only [setPhase, FileTree.lookup_write]
      split
      · next hr =>
        subst hr
        cases hq.symm.trans hq'
        exact ⟨_, rfl, rfl⟩
      · exact ⟨q', hq', rfl⟩
    · cases hstep
  | none =>
    simp only [release] at hstep
    split at hstep
    · cases hstep
    · cases hstep
      exact ⟨rfl, fun r q hq => ⟨q, hq, rfl⟩⟩

theorem Orderly.keeps_entry (h : Orderly s) {e : TurnEvent} (hstep : s.step e = some s')
    {q : TurnRequest} (hq : s.requests.lookup r = some q) (hhandle : q.hasHandle = true) :
    s'.devices.lookup q.clientId = some q.device := by
  have hentry := h.entry r q hq
  cases e with
  | enter r' c =>
    simp only [SubmissionReaders.step, SubmissionReaders.enter] at hstep
    split at hstep
    · cases hstep
    split at hstep <;> cases hstep <;> grind [FileTree.lookup_write]
  | poll r' =>
    obtain ⟨q', hq', hstep⟩ := Option.bind_eq_some_iff.mp hstep
    split at hstep
    · split at hstep <;> cases hstep <;> exact hentry
    · cases hstep
      exact hentry
    all_goals cases hstep
  | cancel r' next =>
    obtain ⟨q', hq', hstep⟩ := Option.bind_eq_some_iff.mp hstep
    split at hstep
    · cases hstep
      exact hentry
    · cases hstep
      exact hentry
    · rwa [(release_eq hstep).1]
    all_goals cases hstep
  | drop r' next =>
    obtain ⟨q', hq', hstep⟩ := Option.bind_eq_some_iff.mp hstep
    split at hstep
    · rwa [(release_eq hstep).1]
    · cases hstep
  | settle r' =>
    obtain ⟨q', hq', hstep⟩ := Option.bind_eq_some_iff.mp hstep
    split at hstep
    · cases hstep
      split
      · next hcount =>
        by_cases hclient : q.clientId = q'.clientId
        · rw [← hclient, hentry, Option.any_some, decide_eq_true_eq] at hcount
          rw [strongCount_eq_one hcount hq rfl] at hhandle
          cases hhandle
        · rwa [FileTree.lookup_remove, if_neg hclient]
      · exact hentry
    · cases hstep

def Serves (s : SubmissionReaders) (c : ClientId) : Prop :=
  ∃ r q, s.requests.lookup r = some q ∧ q.clientId = c

def Tidy (s : SubmissionReaders) : Prop := ∀ c, (s.devices.lookup c).isSome → s.Serves c

/-- A wait that is cancelled is not the last request of its device. -/
def Spared (s : SubmissionReaders) : TurnEvent → Prop
  | .cancel r _ => ∀ q, s.requests.lookup r = some q → (s.forget r).Serves q.clientId
  | _ => True

def SparedRun : SubmissionReaders → List TurnEvent → Prop
  | _, [] => True
  | s, e :: rest => s.Spared e ∧ ∀ s', s.step e = some s' → s'.SparedRun rest

theorem Serves.write (h : s.Serves c) {q : TurnRequest}
    (hrequests : s'.requests = s.requests.insert r q)
    (hq : ∀ q', s.requests.lookup r = some q' → q'.clientId = q.clientId) : s'.Serves c := by
  obtain ⟨r', q', hq', rfl⟩ := h
  by_cases hr : r' = r
  · subst hr
    exact ⟨r', q, by rw [hrequests, FileTree.lookup_write, if_pos rfl], (hq q' hq').symm⟩
  · exact ⟨r', q', by rwa [hrequests, FileTree.lookup_write, if_neg hr], rfl⟩

theorem Serves.release (h : s.Serves c) {device : Nat} (hstep : s.release device next = some s') :
    s'.Serves c := by
  obtain ⟨r, q, hq, rfl⟩ := h
  obtain ⟨q', hq', hclient⟩ := (release_eq hstep).2 r q hq
  exact ⟨r, q', hq', hclient⟩

theorem Serves.forget (h : s.Serves c) {q : TurnRequest} (hq : s.requests.lookup r = some q)
    (hclient : q.clientId ≠ c) : (s.forget r).Serves c := by
  obtain ⟨r', q', hq', rfl⟩ := h
  refine ⟨r', q', ?_, rfl⟩
  rw [SubmissionReaders.forget, FileTree.lookup_remove, if_neg, hq']
  rintro rfl
  cases hq.symm.trans hq'
  exact hclient rfl

theorem Tidy.step (h : Tidy s) (horderly : Orderly s) {e : TurnEvent} (hspared : s.Spared e)
    (hstep : s.step e = some s') : Tidy s' := by
  cases e with
  | enter r c =>
    simp only [SubmissionReaders.step, SubmissionReaders.enter] at hstep
    split at hstep
    · cases hstep
    next hguard =>
    have hnew : ∀ q', s.requests.lookup r = some q' → q'.clientId = c := by
      intro q' hq'
      simp [hq'] at hguard
    split at hstep <;> cases hstep
    · exact fun c' hc' => (h c' hc').write rfl hnew
    · intro c' hc'
      by_cases hsame : c' = c
      · exact ⟨r, ⟨c, s.fresh, .entered⟩, by rw [FileTree.lookup_write, if_pos rfl], hsame.symm⟩
      · rw [FileTree.lookup_write, if_neg hsame] at hc'
        exact (h c' hc').write rfl hnew
  | poll r =>
    obtain ⟨q, hq, hstep⟩ := Option.bind_eq_some_iff.mp hstep
    have hsame : ∀ q', s.requests.lookup r = some q' → q'.clientId = q.clientId :=
      fun q' hq' => congrArg _ (Option.some.inj (hq'.symm.trans hq))
    split at hstep
    · split at hstep <;> cases hstep <;> exact fun c hc => (h c hc).write rfl hsame
    · cases hstep
      exact fun c hc => (h c hc).write rfl hsame
    all_goals cases hstep
  | cancel r next =>
    obtain ⟨q, hq, hstep⟩ := Option.bind_eq_some_iff.mp hstep
    have hforget : Tidy (s.forget r) := by
      intro c hc
      by_cases hclient : q.clientId = c
      · exact hclient ▸ hspared q hq
      · exact (h c hc).forget hq hclient
    split at hstep
    · cases hstep
      exact hforget
    · cases hstep
      exact hforget
    · intro c hc
      rw [(release_eq hstep).1] at hc
      exact (hforget c hc).release hstep
    all_goals cases hstep
  | drop r next =>
    obtain ⟨q, hq, hstep⟩ := Option.bind_eq_some_iff.mp hstep
    have hsame : ∀ q', s.requests.lookup r = some q' → q'.clientId = q.clientId :=
      fun q' hq' => congrArg _ (Option.some.inj (hq'.symm.trans hq))
    split at hstep
    · intro c hc
      rw [(release_eq hstep).1] at hc
      have hserves : { s.setPhase r q .dropping with locked := some r }.Serves c :=
        Serves.write (h c hc) rfl hsame
      exact hserves.release hstep
    · cases hstep
  | settle r =>
    obtain ⟨q, hq, hstep⟩ := Option.bind_eq_some_iff.mp hstep
    split at hstep
    · next hphase =>
      simp only [Bool.and_eq_true, decide_eq_true_eq] at hphase
      cases hstep
      intro c hc
      have hentry := horderly.entry r q hq
      by_cases hclient : q.clientId = c
      · subst hclient
        split at hc
        · rw [FileTree.lookup_remove, if_pos rfl] at hc
          cases hc
        · next hcount =>
          rw [hentry, Option.any_some, decide_eq_true_eq] at hcount
          -- the entry stays for a request that has a handle, and it is one of the same device
          obtain ⟨r', q', hq', hdevice, hhandle⟩ := exists_handle hcount
          have hne : r' ≠ r := by
            rintro rfl
            cases hq.symm.trans hq'
            simp [TurnRequest.hasHandle, hphase.2] at hhandle
          refine ⟨r', q', ?_, ?_⟩
          · rw [SubmissionReaders.forget, FileTree.lookup_remove, if_neg hne, hq']
          · exact horderly.apart _ _ _ (horderly.entry r' q' hq') (hdevice ▸ hentry)
      · have hkept : (s.devices.lookup c).isSome := by
          split at hc
          · rwa [FileTree.lookup_remove, if_neg (Ne.symm hclient)] at hc
          · exact hc
        exact (h c hkept).forget hq hclient
    · cases hstep

theorem Tidy.run (h : Tidy s) (horderly : Orderly s) {events : List TurnEvent}
    (hspared : s.SparedRun events) (hrun : s.run events = some s') : Tidy s' := by
  induction events generalizing s with
  | nil =>
    cases hrun
    exact h
  | cons e rest ih =>
    obtain ⟨next, hstep, hrun⟩ := Option.bind_eq_some_iff.mp hrun
    exact ih (h.step horderly hspared.1 hstep) (horderly.step hstep) (hspared.2 next hstep) hrun

end SubmissionReaders

/-- Whatever the interleaving, a device has one turn at a time, and its entry stays while a request
of it waits or holds the turn. When no wait is cancelled that is the last request of its device, no
entry outlives the requests. -/
theorem one_reader_per_device (events : List TurnEvent) (s : SubmissionReaders)
    (hrun : SubmissionReaders.empty.run events = some s) :
    (∀ r r' q q', s.requests.lookup r = some q → s.requests.lookup r' = some q' →
      q.phase = .reading → q'.phase = .reading → q.clientId = q'.clientId → r = r') ∧
    (∀ r q, s.requests.lookup r = some q → q.phase ≠ .dropping →
      s.devices.lookup q.clientId = some q.device ∧
      ∀ e s', s.step e = some s' → s'.devices.lookup q.clientId = some q.device) ∧
    (SubmissionReaders.empty.SparedRun events → ∀ c,
      (∀ r q, s.requests.lookup r = some q → q.clientId ≠ c) → s.devices.lookup c = none) := by
  have horderly := SubmissionReaders.Orderly.empty.run hrun
  refine ⟨?_, fun r q hq hphase => ⟨horderly.entry r q hq, fun e s' hstep => ?_⟩, ?_⟩
  · intro r r' q q' hq hq' hphase hphase' hclient
    have hentry := horderly.entry r q hq
    rw [hclient, horderly.entry r' q' hq', Option.some.injEq] at hentry
    exact horderly.one r r' q q' hq hq' hentry.symm (by simp [TurnRequest.hasPermit, hphase])
      (by simp [TurnRequest.hasPermit, hphase'])
  · exact horderly.keeps_entry hstep hq (by simpa [TurnRequest.hasHandle] using hphase)
  · intro hspared c hnone
    have htidy : s.Tidy := SubmissionReaders.Tidy.run (by simp [SubmissionReaders.Tidy,
      SubmissionReaders.empty]) .empty hspared hrun
    by_contra hsome
    obtain ⟨r, q, hq, hclient⟩ := htidy c (Option.isSome_iff_ne_none.mpr hsome)
    exact hnone r q hq hclient

theorem SubmissionReaders.SparedRun.cons {s s' : SubmissionReaders} {e : TurnEvent}
    {rest : List TurnEvent} (hspared : s.Spared e) (hstep : s.step e = some s')
    (hrest : s'.SparedRun rest) : s.SparedRun (e :: rest) := by
  refine ⟨hspared, fun _ hstep' => ?_⟩
  cases hstep.symm.trans hstep'
  exact hrest

/-- The second request waits for the first, beside one of another device; a third one gives up. -/
def threeWaiting : List TurnEvent :=
  [.enter 0 ⟨"ev1_a"⟩, .poll 0, .enter 1 ⟨"ev1_a"⟩, .poll 1, .enter 2 ⟨"ev1_a"⟩, .poll 2,
    .enter 3 ⟨"ev1_b"⟩, .poll 3, .cancel 2 none]

def turnHandedOn : List TurnEvent :=
  threeWaiting ++ [.drop 0 (some 1), .settle 0, .poll 1, .drop 1 none, .settle 1]

theorem one_reader_per_device_waiting :
    (∃ s, SubmissionReaders.empty.run threeWaiting = some s ∧
      (s.requests.lookup 1).map (·.phase) = some .queued ∧
      ∀ e s', s.step e = some s' → s'.devices.lookup ⟨"ev1_a"⟩ = some 0) ∧
    ∃ s, SubmissionReaders.empty.run turnHandedOn = some s ∧
      SubmissionReaders.empty.SparedRun turnHandedOn ∧ s.devices.lookup ⟨"ev1_a"⟩ = none ∧
      (s.requests.lookup 3).map (·.phase) = some .reading := by
  have hspared : SubmissionReaders.empty.SparedRun turnHandedOn := by
    refine .cons trivial rfl (.cons trivial rfl (.cons trivial rfl (.cons trivial rfl
      (.cons trivial rfl (.cons trivial rfl (.cons trivial rfl (.cons trivial rfl (.cons ?_ rfl
        (.cons trivial rfl (.cons trivial rfl (.cons trivial rfl (.cons trivial rfl
          (.cons trivial rfl trivial)))))))))))))
    rintro _ ⟨⟩
    exact ⟨0, _, rfl, rfl⟩
  refine ⟨⟨_, rfl, rfl, ((one_reader_per_device threeWaiting _ rfl).2.1 1 _ rfl (by decide)).2⟩,
    _, rfl, hspared, (one_reader_per_device turnHandedOn _ rfl).2.2 hspared _ fun r q hq => ?_, rfl⟩
  have hr : r ∈ [3] := FileTree.mem_keys_iff.mpr (Option.isSome_iff_exists.mpr ⟨q, hq⟩)
  obtain rfl := List.mem_singleton.mp hr
  cases hq
  decide

/-- The turn of the first request is handed to the second, which is cancelled. -/
theorem cancelled_wait_leaves_entry :
    ∃ s, SubmissionReaders.empty.run [.enter 0 ⟨"ev1_a"⟩, .poll 0, .enter 1 ⟨"ev1_a"⟩, .poll 1,
        .drop 0 (some 1), .settle 0, .cancel 1 none] = some s ∧
      (∀ r, s.requests.lookup r = none) ∧ s.devices.lookup ⟨"ev1_a"⟩ = some 0 :=
  ⟨_, rfl, fun _ => rfl, rfl⟩

end Pipette
