import Pipette.Core.Plan
import Pipette.Core.Principal
import Pipette.Core.Queue
import Pipette.Lib.Calendar
import Pipette.Lib.Result

/-! The names of the files under `todo/`. They are cut apart at dots and slashes, which no id and no
time contains. -/
namespace Pipette

inductive IdError
  | empty (field : String)
  | invalidChar (field : String) (ch : Char) (allowed : String)
  | width (field expected : String) (got : Nat)
  | principal (source : PrincipalIdError)
  /-- The parse rewrites the segment. -/
  | notVerbatim (segment : String)
deriving DecidableEq, Repr

def checkId (s field allowed : String) (extra : List Char) : Except IdError Unit :=
  if s = "" then .error (.empty field)
  else
    match s.toList.find? fun c => !c.isAlphanum && !extra.contains c with
    | some ch => .error (.invalidChar field ch allowed)
    | none => .ok ()

def JobId.fromStr (s : String) : Except IdError JobId := do
  checkId s "job_id" "[A-Za-z0-9-]" ['-']
  pure ⟨s⟩

def PlanId.fromStr (s : String) : Except IdError PlanId := do
  checkId s "plan_id" "[A-Za-z0-9-]" ['-']
  pure ⟨s⟩

def ClientId.tryNew (s : String) : Except PrincipalIdError ClientId := do
  checkIdCharset "client id" (trim s)
  pure ⟨trim s⟩

/-- A client id read back from a key, refused where the parse rewrites the segment. -/
def ClientId.fromKey (segment : String) : Except IdError ClientId :=
  match ClientId.tryNew segment with
  | .error e => .error (.principal e)
  | .ok id => if id.raw ≠ segment then .error (.notVerbatim segment) else .ok id

def JobId.Valid (j : JobId) : Prop := ∃ s, JobId.fromStr s = .ok j

def PlanId.Valid (p : PlanId) : Prop := ∃ s, PlanId.fromStr s = .ok p

def ClientId.Valid (c : ClientId) : Prop := ∃ s, ClientId.tryNew s = .ok c

def Stamp.FourDigitYear (s : Stamp) : Prop := -62167219200 ≤ s.secs ∧ s.secs ≤ 253402300799

/-- `%Y%m%dT%H%M%SZ` -/
structure TimePattern where
  format : Stamp → String
  parse : String → Option Stamp
  chars : ∀ s, s.FourDigitYear → ∀ c ∈ (format s).toList, c.isDigit = true ∨ c = 'T' ∨ c = 'Z'
  parse_format : ∀ s, s.FourDigitYear → parse (format s) = some s

section Names

variable (pattern : TimePattern)

def ExpiresAt.display : ExpiresAt → String
  | .atStamp s => pattern.format s
  | .never => "never"

def ExpiresAt.fromStr (s : String) : Option ExpiresAt :=
  if s = "never" then some .never else (pattern.parse s).map .atStamp

def ExpiresAt.FourDigitYear : ExpiresAt → Prop
  | .atStamp s => s.FourDigitYear
  | .never => True

structure Uuid where
  text : String
  hex : ∀ c ∈ text.toList, c ∈ "0123456789abcdef-".toList
deriving DecidableEq

inductive NameError
  | missingSeparator (name : String) (sep : Char)
  | missingSecondSeparator (name : String)
  | missingSuffix (name : String)
  | jobId (name : String) (source : IdError)
  | planId (name : String) (source : IdError)
  | clientId (name : String) (source : IdError)
  | expiresAt (name : String)
  | leaseExpiry (name text : String)
deriving DecidableEq, Repr

def rsplitOnce (sep : Char) (text : String) : Option (String × String) :=
  match text.toList.reverse.dropWhile (· ≠ sep) with
  | [] => none
  | _ :: rest => some (String.ofList rest.reverse,
      String.ofList (text.toList.reverse.takeWhile (· ≠ sep)).reverse)

def orElse {ε α : Type} (e : ε) : Option α → Except ε α
  | some a => .ok a
  | none => .error e

def availFilename (jobId : JobId) (expiresAt : ExpiresAt) : String :=
  jobId.raw ++ "/" ++ expiresAt.display pattern ++ ".json"

def splitJobAndExpiry (name : String) (sep : Char) : Except NameError (JobId × ExpiresAt) := do
  let stem ← orElse (.missingSuffix name) (stripSuffix ".json" name.toList)
  let parts ← orElse (.missingSeparator name sep) (splitOnce sep (String.ofList stem))
  let jobId ← (JobId.fromStr parts.1).mapError (.jobId name)
  let expiresAt ← orElse (.expiresAt name) (ExpiresAt.fromStr pattern parts.2)
  pure (jobId, expiresAt)

def parseAvailFilename (name : String) : Except NameError (JobId × ExpiresAt) :=
  splitJobAndExpiry pattern name '/'

def eligibleFilename (jobId : JobId) (expiresAt : ExpiresAt) : String :=
  jobId.raw ++ "." ++ expiresAt.display pattern

def parseEligibleFilename (name : String) : Except NameError (JobId × ExpiresAt) := do
  let parts ← orElse (.missingSeparator name '.') (splitOnce '.' name)
  let jobId ← (JobId.fromStr parts.1).mapError (.jobId name)
  let expiresAt ← orElse (.expiresAt name) (ExpiresAt.fromStr pattern parts.2)
  pure (jobId, expiresAt)

def jobPlanMarkerFilename (planId : PlanId) (expiresAt : ExpiresAt) : String :=
  planId.raw ++ "." ++ expiresAt.display pattern

def parseJobPlanMarkerFilename (name : String) : Except NameError (PlanId × ExpiresAt) := do
  let parts ← orElse (.missingSeparator name '.') (splitOnce '.' name)
  let planId ← (PlanId.fromStr parts.1).mapError (.planId name)
  let expiresAt ← orElse (.expiresAt name) (ExpiresAt.fromStr pattern parts.2)
  pure (planId, expiresAt)

def deniedMarkerFilename (jobId : JobId) (clientId : ClientId) : String :=
  jobId.raw ++ "." ++ clientId.raw

def parseDeniedMarker (name : String) : Except NameError (JobId × ClientId) := do
  let parts ← orElse (.missingSeparator name '.') (splitOnce '.' name)
  let jobId ← (JobId.fromStr parts.1).mapError (.jobId name)
  let clientId ← (ClientId.fromKey parts.2).mapError (.clientId name)
  pure (jobId, clientId)

def pendingReindexFilename (clientId : ClientId) (uuid : Uuid) : String :=
  clientId.raw ++ "." ++ uuid.text

def parsePendingReindexFilename (name : String) : Except NameError ClientId := do
  let parts ← orElse (.missingSeparator name '.') (rsplitOnce '.' name)
  (ClientId.fromKey parts.1).mapError (.clientId name)

def leasedKey (lease : Lease) : String :=
  lease.clientId.raw ++ "/" ++ lease.jobId.raw ++ "." ++ lease.expiresAt.display pattern ++ "." ++
    pattern.format lease.leaseExpiry ++ ".json"

def parseLeasedKey (key : String) : Except NameError Lease := do
  let parts ← orElse (.missingSeparator key '/') (splitOnce '/' key)
  let clientId ← (ClientId.fromKey parts.1).mapError (.clientId key)
  let stem ← orElse (.missingSuffix key) (stripSuffix ".json" parts.2.toList)
  let job ← orElse (.missingSeparator key '.') (splitOnce '.' (String.ofList stem))
  let expiries ← orElse (.missingSecondSeparator key) (splitOnce '.' job.2)
  let jobId ← (JobId.fromStr job.1).mapError (.jobId key)
  let expiresAt ← orElse (.expiresAt key) (ExpiresAt.fromStr pattern expiries.1)
  let leaseExpiry ← orElse (.leaseExpiry key expiries.2) (pattern.parse expiries.2)
  pure ⟨jobId, expiresAt, clientId, leaseExpiry⟩

def lostLeaseFilename (clientId : ClientId) (leaseExpiry : Stamp) : String :=
  clientId.raw ++ "." ++ pattern.format leaseExpiry

def parseLostLeaseFilename (name : String) : Except NameError (ClientId × Stamp) := do
  let parts ← orElse (.missingSeparator name '.') (splitOnce '.' name)
  let clientId ← (ClientId.fromKey parts.1).mapError (.clientId name)
  let leaseExpiry ← orElse (.leaseExpiry name parts.2) (pattern.parse parts.2)
  pure (clientId, leaseExpiry)

def IdText (text : String) : Prop := ∀ c ∈ text.toList, isIdChar c = true

section Parts

variable {pattern} {j : JobId} {p : PlanId} {c : ClientId} {d : ExpiresAt} {s : Stamp}

theorem checkId_eq_ok {text field allowed : String}
    (h : checkId text field allowed ['-'] = .ok ()) : IdText text := by
  unfold checkId at h
  split at h
  · cases h
  split at h
  · cases h
  next hnone =>
  intro x hx
  have hx := List.find?_eq_none.mp hnone x hx
  simp only [isIdChar, Bool.or_eq_true, decide_eq_true_eq]
  by_cases halnum : x.isAlphanum = true
  · exact .inl (.inl halnum)
  · exact .inr (by simpa [halnum] using hx)

theorem checkIdCharset_eq_ok {kind text : String} (h : checkIdCharset kind text = .ok ()) :
    IdText text := by
  unfold checkIdCharset at h
  split at h
  · cases h
  split at h
  · cases h
  next hnone => simpa [IdText] using hnone

theorem JobId.Valid.fromStr (h : j.Valid) : JobId.fromStr j.raw = .ok j := by
  obtain ⟨s, hs⟩ := h
  obtain ⟨u, hcheck, hj⟩ := Result.bind_eq_ok hs
  cases hj
  exact hs

theorem JobId.Valid.idText (h : j.Valid) : IdText j.raw := by
  obtain ⟨u, hcheck, -⟩ := Result.bind_eq_ok h.fromStr
  exact checkId_eq_ok hcheck

theorem PlanId.Valid.fromStr (h : p.Valid) : PlanId.fromStr p.raw = .ok p := by
  obtain ⟨s, hs⟩ := h
  obtain ⟨u, hcheck, hp⟩ := Result.bind_eq_ok hs
  cases hp
  exact hs

theorem PlanId.Valid.idText (h : p.Valid) : IdText p.raw := by
  obtain ⟨u, hcheck, -⟩ := Result.bind_eq_ok h.fromStr
  exact checkId_eq_ok hcheck

theorem ClientId.Valid.idText (h : c.Valid) : IdText c.raw := by
  obtain ⟨s, hs⟩ := h
  obtain ⟨u, hcheck, hc⟩ := Result.bind_eq_ok hs
  cases hc
  exact checkIdCharset_eq_ok hcheck

theorem ClientId.Valid.fromKey (h : c.Valid) : ClientId.fromKey c.raw = .ok c := by
  have htrim : trim c.raw = c.raw :=
    trim_eq_self fun x hx => not_isWhitespace_of_isIdChar (h.idText x hx)
  obtain ⟨s, hs⟩ := h
  obtain ⟨u, hcheck, hc⟩ := Result.bind_eq_ok hs
  cases hc
  have hnew : ClientId.tryNew (trim s) = .ok ⟨trim s⟩ := by
    rw [ClientId.tryNew, htrim, hcheck]
    rfl
  simp [ClientId.fromKey, hnew]

theorem TimePattern.idText (h : s.FourDigitYear) : IdText (pattern.format s) := by
  intro x hx
  simp only [isIdChar, Char.isAlphanum, Bool.or_eq_true, decide_eq_true_eq]
  obtain hdigit | rfl | rfl := pattern.chars s h x hx
  · exact .inl (.inl (.inr hdigit))
  · decide
  · decide

theorem ExpiresAt.idText_display (h : d.FourDigitYear) : IdText (d.display pattern) := by
  cases d with
  | atStamp s => exact TimePattern.idText h
  | never =>
    have hnever : "never".toList.all isIdChar = true := by decide
    exact List.all_eq_true.mp hnever

theorem ExpiresAt.fromStr_display (h : d.FourDigitYear) :
    ExpiresAt.fromStr pattern (d.display pattern) = some d := by
  cases d with
  | never => rfl
  | atStamp s =>
    have hne : pattern.format s ≠ "never" := by
      intro heq
      have hn := pattern.chars s h 'n' (by rw [heq]; decide)
      revert hn
      decide
    simp [ExpiresAt.fromStr, ExpiresAt.display, hne, pattern.parse_format s h]

theorem Uuid.idText (uuid : Uuid) : IdText uuid.text := by
  have hall : "0123456789abcdef-".toList.all isIdChar = true := by decide
  exact fun x hx => List.all_eq_true.mp hall x (uuid.hex x hx)

end Parts

section Cuts

variable {text a b : String} {sep : Char}

theorem IdText.ne (ha : IdText a) (hsep : isIdChar sep = false) : ∀ c ∈ a.toList, c ≠ sep := by
  rintro c hc rfl
  rw [ha c hc] at hsep
  cases hsep

theorem splitOnce_eq (ha : IdText a) (hsep : isIdChar sep = false)
    (htext : text.toList = a.toList ++ sep :: b.toList) : splitOnce sep text = some (a, b) := by
  have hne : ∀ c ∈ a.toList, (decide (c ≠ sep)) = true := by simpa using ha.ne hsep
  rw [splitOnce, htext, List.dropWhile_append_of_pos hne, List.takeWhile_append_of_pos hne]
  simp

theorem rsplitOnce_eq (hb : IdText b) (hsep : isIdChar sep = false)
    (htext : text.toList = a.toList ++ sep :: b.toList) : rsplitOnce sep text = some (a, b) := by
  have hne : ∀ c ∈ b.toList.reverse, (decide (c ≠ sep)) = true := by simpa using hb.ne hsep
  have hrev : text.toList.reverse = b.toList.reverse ++ sep :: a.toList.reverse := by
    simp [htext]
  rw [rsplitOnce, hrev, List.dropWhile_append_of_pos hne, List.takeWhile_append_of_pos hne]
  simp

theorem stripSuffix_eq {value : List Char} {ending : String} (h : value = a.toList ++ ending.toList) :
    stripSuffix ending value = some a.toList := by
  rw [h, stripSuffix_append]

end Cuts

inductive NameKind
  | avail
  | eligible
  | jobPlan
  | denied
  | pendingReindex
  | leased
  | lost
deriving DecidableEq, Repr

inductive NameParts
  | avail (jobId : JobId) (expiresAt : ExpiresAt)
  | eligible (jobId : JobId) (expiresAt : ExpiresAt)
  | jobPlan (planId : PlanId) (expiresAt : ExpiresAt)
  | denied (jobId : JobId) (clientId : ClientId)
  | pendingReindex (clientId : ClientId) (uuid : Uuid)
  | leased (lease : Lease)
  | lost (clientId : ClientId) (leaseExpiry : Stamp)
deriving DecidableEq

namespace NameParts

def kind : NameParts → NameKind
  | avail .. => .avail
  | eligible .. => .eligible
  | jobPlan .. => .jobPlan
  | denied .. => .denied
  | pendingReindex .. => .pendingReindex
  | leased .. => .leased
  | lost .. => .lost

def Valid : NameParts → Prop
  | avail j d => j.Valid ∧ d.FourDigitYear
  | eligible j d => j.Valid ∧ d.FourDigitYear
  | jobPlan p d => p.Valid ∧ d.FourDigitYear
  | denied j c => j.Valid ∧ c.Valid
  | pendingReindex c _ => c.Valid
  | leased l =>
    l.jobId.Valid ∧ l.expiresAt.FourDigitYear ∧ l.clientId.Valid ∧ l.leaseExpiry.FourDigitYear
  | lost c e => c.Valid ∧ e.FourDigitYear

def name : NameParts → String
  | avail j d => availFilename pattern j d
  | eligible j d => eligibleFilename pattern j d
  | jobPlan p d => jobPlanMarkerFilename pattern p d
  | denied j c => deniedMarkerFilename j c
  | pendingReindex c uuid => pendingReindexFilename c uuid
  | leased l => leasedKey pattern l
  | lost c e => lostLeaseFilename pattern c e

def ReadFrom (text : String) : NameParts → Prop
  | avail j d => parseAvailFilename pattern text = .ok (j, d)
  | eligible j d => parseEligibleFilename pattern text = .ok (j, d)
  | jobPlan p d => parseJobPlanMarkerFilename pattern text = .ok (p, d)
  | denied j c => parseDeniedMarker text = .ok (j, c)
  | pendingReindex c _ => parsePendingReindexFilename text = .ok c
  | leased l => parseLeasedKey pattern text = .ok l
  | lost c e => parseLostLeaseFilename pattern text = .ok (c, e)

variable {pattern}

theorem readFrom_name (pattern : TimePattern) {parts : NameParts} (h : parts.Valid) :
    parts.ReadFrom pattern (parts.name pattern) := by
  cases parts with
  | avail j d =>
    obtain ⟨hj, hd⟩ := h
    have hstem : stripSuffix ".json" (availFilename pattern j d).toList =
        some (j.raw ++ "/" ++ d.display pattern).toList := stripSuffix_eq (by simp [availFilename])
    have hsplit : splitOnce '/' (j.raw ++ "/" ++ d.display pattern) =
        some (j.raw, d.display pattern) := splitOnce_eq hj.idText (by decide) (by simp)
    simp only [ReadFrom, name, parseAvailFilename, splitJobAndExpiry, hstem, orElse, bind,
      Except.bind, String.ofList_toList, hsplit, hj.fromStr, Except.mapError,
      ExpiresAt.fromStr_display hd, pure, Except.pure]
  | eligible j d =>
    obtain ⟨hj, hd⟩ := h
    have hsplit : splitOnce '.' (eligibleFilename pattern j d) = some (j.raw, d.display pattern) :=
      splitOnce_eq hj.idText (by decide) (by simp [eligibleFilename])
    simp only [ReadFrom, name, parseEligibleFilename, orElse, bind, Except.bind, hsplit, hj.fromStr,
      Except.mapError, ExpiresAt.fromStr_display hd, pure, Except.pure]
  | jobPlan p d =>
    obtain ⟨hp, hd⟩ := h
    have hsplit : splitOnce '.' (jobPlanMarkerFilename pattern p d) =
        some (p.raw, d.display pattern) :=
      splitOnce_eq hp.idText (by decide) (by simp [jobPlanMarkerFilename])
    simp only [ReadFrom, name, parseJobPlanMarkerFilename, orElse, bind, Except.bind, hsplit,
      hp.fromStr, Except.mapError, ExpiresAt.fromStr_display hd, pure, Except.pure]
  | denied j c =>
    obtain ⟨hj, hc⟩ := h
    have hsplit : splitOnce '.' (deniedMarkerFilename j c) = some (j.raw, c.raw) :=
      splitOnce_eq hj.idText (by decide) (by simp [deniedMarkerFilename])
    simp only [ReadFrom, name, parseDeniedMarker, orElse, bind, Except.bind, hsplit, hj.fromStr,
      Except.mapError, hc.fromKey, pure, Except.pure]
  | pendingReindex c uuid =>
    have hsplit : rsplitOnce '.' (pendingReindexFilename c uuid) = some (c.raw, uuid.text) :=
      rsplitOnce_eq uuid.idText (by decide) (by simp [pendingReindexFilename])
    simp only [ReadFrom, name, parsePendingReindexFilename, orElse, bind, Except.bind, hsplit,
      ClientId.Valid.fromKey h, Except.mapError]
  | leased l =>
    obtain ⟨hj, hd, hc, he⟩ := h
    have hclient : splitOnce '/' (leasedKey pattern l) = some (l.clientId.raw, l.jobId.raw ++ "." ++
        l.expiresAt.display pattern ++ "." ++ pattern.format l.leaseExpiry ++ ".json") :=
      splitOnce_eq hc.idText (by decide) (by simp [leasedKey])
    have hstem : stripSuffix ".json" (l.jobId.raw ++ "." ++ l.expiresAt.display pattern ++ "." ++
        pattern.format l.leaseExpiry ++ ".json").toList = some (l.jobId.raw ++ "." ++
          (l.expiresAt.display pattern ++ "." ++ pattern.format l.leaseExpiry)).toList :=
      stripSuffix_eq (by simp)
    have hjob : splitOnce '.' (l.jobId.raw ++ "." ++ (l.expiresAt.display pattern ++ "." ++
        pattern.format l.leaseExpiry)) = some (l.jobId.raw,
          l.expiresAt.display pattern ++ "." ++ pattern.format l.leaseExpiry) :=
      splitOnce_eq hj.idText (by decide) (by simp)
    have hexpiries : splitOnce '.' (l.expiresAt.display pattern ++ "." ++
        pattern.format l.leaseExpiry) =
          some (l.expiresAt.display pattern, pattern.format l.leaseExpiry) :=
      splitOnce_eq (ExpiresAt.idText_display hd) (by decide) (by simp)
    simp only [ReadFrom, name, parseLeasedKey, orElse, bind, Except.bind, hclient, hc.fromKey,
      Except.mapError, hstem, String.ofList_toList, hjob, hexpiries, hj.fromStr,
      ExpiresAt.fromStr_display hd, pattern.parse_format _ he, pure, Except.pure]
  | lost c e =>
    obtain ⟨hc, he⟩ := h
    have hsplit : splitOnce '.' (lostLeaseFilename pattern c e) = some (c.raw, pattern.format e) :=
      splitOnce_eq hc.idText (by decide) (by simp [lostLeaseFilename])
    simp only [ReadFrom, name, parseLostLeaseFilename, orElse, bind, Except.bind, hsplit,
      hc.fromKey, Except.mapError, pattern.parse_format _ he, pure, Except.pure]

/-- One text is read as one tuple of a kind; the UUID, which no parser reads, follows the client. -/
theorem eq_of_readFrom {parts parts' : NameParts} {text : String} (hkind : parts.kind = parts'.kind)
    (h : parts.ReadFrom pattern text) (h' : parts'.ReadFrom pattern text)
    (hname : parts.name pattern = text) (hname' : parts'.name pattern = text) : parts = parts' := by
  cases parts <;> cases parts' <;> try cases hkind
  case pendingReindex c uuid c' uuid' =>
    simp only [ReadFrom] at h h'
    cases h.symm.trans h'
    have htext : pendingReindexFilename c uuid = pendingReindexFilename c uuid' :=
      hname.trans hname'.symm
    rw [pendingReindexFilename, pendingReindexFilename, ← String.toList_inj] at htext
    obtain ⟨text, _⟩ := uuid
    obtain ⟨text', _⟩ := uuid'
    have heq : text = text' := String.toList_inj.mp (by simpa using htext)
    subst heq
    rfl
  all_goals
    simp only [ReadFrom] at h h'
    cases h.symm.trans h'
    rfl

end NameParts

/-- A name gives back what it was made of, and no other tuple of its kind has it. -/
theorem queue_names_decode (parts : NameParts) (h : parts.Valid) :
    parts.ReadFrom pattern (parts.name pattern) ∧
      ∀ parts' : NameParts, parts'.Valid → parts'.kind = parts.kind → parts' ≠ parts →
        parts'.name pattern ≠ parts.name pattern := by
  have hread := NameParts.readFrom_name pattern h
  refine ⟨hread, fun parts' h' hkind hne hname => hne ?_⟩
  have hread' := NameParts.readFrom_name pattern h'
  rw [hname] at hread'
  exact NameParts.eq_of_readFrom hkind hread' hread hname rfl

end Names

def calendarFormat (s : Stamp) : String :=
  String.ofList (Calendar.chars (s.secs + Calendar.epoch).toNat)

def calendarParse (text : String) : Option Stamp :=
  (Calendar.read text.toList).map fun n : Nat => (⟨n - Calendar.epoch⟩ : Stamp)

theorem calendarFormat_chars (s : Stamp) (h : s.FourDigitYear) (c : Char)
    (hc : c ∈ (calendarFormat s).toList) : c.isDigit = true ∨ c = 'T' ∨ c = 'Z' := by
  obtain ⟨hfirst, hlast⟩ := Calendar.days_bounds h.1 h.2
  rw [calendarFormat, String.toList_ofList] at hc
  exact Calendar.mem_chars hfirst hlast hc

theorem calendarParse_format (s : Stamp) (h : s.FourDigitYear) :
    calendarParse (calendarFormat s) = some s := by
  obtain ⟨hfirst, hlast⟩ := Calendar.days_bounds h.1 h.2
  have hstart : 0 ≤ s.secs + Calendar.epoch := by
    have := h.1
    simp only [Calendar.epoch]
    omega
  rw [calendarParse, calendarFormat, String.toList_ofList, Calendar.read_chars hfirst hlast,
    Option.map_some, Int.toNat_of_nonneg hstart, Int.add_sub_cancel]

def TimePattern.calendar : TimePattern :=
  ⟨calendarFormat, calendarParse, calendarFormat_chars, calendarParse_format⟩

theorem queue_names_decode_lease :
    (NameParts.leased ⟨⟨"job-1"⟩, .atStamp ⟨1709209815⟩, ⟨"ev1_a"⟩, ⟨0⟩⟩).Valid ∧
      (NameParts.leased ⟨⟨"job-1"⟩, .atStamp ⟨1709209815⟩, ⟨"ev1_a"⟩, ⟨0⟩⟩).ReadFrom .calendar
        ((NameParts.leased ⟨⟨"job-1"⟩, .atStamp ⟨1709209815⟩, ⟨"ev1_a"⟩, ⟨0⟩⟩).name .calendar) := by
  have hvalid : (NameParts.leased ⟨⟨"job-1"⟩, .atStamp ⟨1709209815⟩, ⟨"ev1_a"⟩, ⟨0⟩⟩).Valid :=
    ⟨⟨"job-1", by decide⟩, ⟨by decide, by decide⟩, ⟨"ev1_a", by decide⟩, by decide, by decide⟩
  exact ⟨hvalid, (queue_names_decode .calendar _ hvalid).1⟩

end Pipette
