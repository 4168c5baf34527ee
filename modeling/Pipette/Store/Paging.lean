import Mathlib.Data.String.Basic
import Pipette.Core.Plan
import Pipette.Core.Principal
import Pipette.Lib.Assoc
import Pipette.Lib.Result
import Pipette.Store.World

/-! Pages of a flat keyspace of `{id}.json` files, the refill of a page that a filter thins out, and
the walk from page to page. Each page sees the directory as it is at that moment. -/
namespace Pipette

abbrev NonZero := { n : Nat // 0 < n }

structure UnreadableObject where
  key : String
  reason : String
deriving DecidableEq

structure Page (T Id : Type) where
  items : List T
  unreadable : List UnreadableObject
  /-- The last key examined, `none` at the end. -/
  resumeAfter : Option Id

structure Listing (T : Type) where
  items : List T
  unreadable : List UnreadableObject

/-- What one page sees of the directory. A file is read after the names are, so it may be gone. -/
structure DirView (Bytes : Type) where
  readDir : Except Fault (List String)
  read : String → Except Fault (Option Bytes)
  nodup : ∀ names, readDir = .ok names → names.Nodup

section Keyspace

variable {T Id Bytes : Type} (text : Id → String) (parseId : String → Option Id)

/-- An id read back from a file name, refused where the parse rewrites the segment. -/
def idFromKey (segment : String) : Option Id := do
  let id ← parseId segment
  if text id = segment then some id else none

def flatKeyspaceId (leaf : String) : Option Id := do
  idFromKey text parseId (String.ofList (← stripSuffix ".json" leaf.toList))

variable (dir : String) (decode : Bytes → Except String T) (admits : T → Bool)

def Page.examine (view : DirView Bytes) (page : Page T Id) (leaf : String) :
    Except Fault (Page T Id) := do
  match ← view.read leaf with
  | none => pure page
  | some data =>
    match decode data with
    | .ok record =>
      if admits record then pure { page with items := page.items ++ [record] } else pure page
    | .error reason =>
      pure { page with unreadable := page.unreadable ++ [⟨dir ++ "/" ++ leaf, reason⟩] }

def Page.fill (limit : NonZero) (view : DirView Bytes) :
    Page T Id → List (String × Id) → Except Fault (Page T Id)
  | page, [] => .ok page
  | page, (leaf, id) :: rest => do
    let page ← page.examine dir decode admits view leaf
    if page.items.length = limit then
      pure { page with resumeAfter := if rest.isEmpty then none else some id }
    else Page.fill limit view page rest

def pageCandidates (after : Option Id) (names : List String) : List (String × Id) :=
  let candidates := Assoc.sortByKey
    (names.filterMap fun leaf => (flatKeyspaceId text parseId leaf).map fun id => (leaf, id))
  match after.map fun id => text id ++ ".json" with
  | some after => candidates.filter fun c => decide (after < c.1)
  | none => candidates

def pageFlatKeyspace (after : Option Id) (limit : NonZero) (view : DirView Bytes) :
    Except Fault (Page T Id) := do
  let names ← view.readDir
  Page.fill dir decode admits limit view ⟨[], [], none⟩ (pageCandidates text parseId after names)

end Keyspace

structure CampaignId where
  raw : String
deriving DecidableEq

structure FiledManifest extends PlanManifest where
  campaignId : Option CampaignId
  submittedBy : Option UserId

structure PlanReach where
  campaigns : Finset CampaignId
  filer : Option UserId

def PlanReach.admits (reach : PlanReach) (campaignId : Option CampaignId)
    (submittedBy : Option UserId) : Bool :=
  match campaignId with
  | some campaign => campaign ∈ reach.campaigns
  | none => reach.filer.isSome && submittedBy = reach.filer

structure PlanFilter where
  status : Option PlanStatus
  campaignId : Option CampaignId
  submittedBy : Option UserId
  reach : Option PlanReach

def PlanFilter.admits (filter : PlanFilter) (manifest : FiledManifest) : Bool :=
  (filter.status.all fun status => manifest.status = status) &&
    (filter.campaignId.all fun campaign => manifest.campaignId = some campaign) &&
    (filter.submittedBy.all fun user => manifest.submittedBy = some user) &&
    filter.reach.all fun reach => reach.admits manifest.campaignId manifest.submittedBy

def PlanId.tryNew (s : String) : Option PlanId :=
  if s ≠ "" ∧ s.toList.all (fun c => c.isAlphanum || c = '-') then some ⟨s⟩ else none

abbrev PlanPage := Page FiledManifest PlanId

section Plans

variable {Bytes : Type} (decode : Bytes → Except String FiledManifest)

def listPlansByStatus (status : Option PlanStatus) (after : Option PlanId) (limit : NonZero)
    (view : DirView Bytes) : Except Fault PlanPage :=
  pageFlatKeyspace PlanId.raw PlanId.tryNew "plans" decode
    (fun manifest => status.all fun wanted => manifest.status = wanted) after limit view

/-- Ask for the rows a page still lacks and filter them, until it is full or the keyspace ends. The
list has what each request sees, and `none` is a page that needs more requests. -/
def pageMatchingPlans (filter : PlanFilter) (limit : NonZero) :
    List (DirView Bytes) → Option PlanId → PlanPage → Option (Except Fault PlanPage)
  | [], _, page => if limit - page.items.length = 0 then some (.ok page) else none
  | view :: views, cursor, page =>
    if h : 0 < limit - page.items.length then
      match listPlansByStatus decode filter.status cursor ⟨limit - page.items.length, h⟩ view with
      | .error e => some (.error e)
      | .ok inner =>
        let page : PlanPage :=
          { items := page.items ++ inner.items.filter filter.admits
            unreadable := page.unreadable ++ inner.unreadable
            resumeAfter := inner.resumeAfter }
        match inner.resumeAfter with
        | some next => pageMatchingPlans filter limit views (some next) page
        | none => some (.ok page)
    else some (.ok page)

def listMatchingPlans (filter : PlanFilter) (after : Option PlanId) (limit : NonZero)
    (views : List (DirView Bytes)) : Option (Except Fault PlanPage) :=
  pageMatchingPlans decode filter limit views after ⟨[], [], none⟩

def followPages (filter : PlanFilter) (limit : NonZero) :
    List (List (DirView Bytes)) → Option PlanId → Listing FiledManifest →
      Option (Except Fault (Listing FiledManifest))
  | [], _, _ => none
  | views :: pages, after, listing =>
    match listMatchingPlans decode filter after limit views with
    | none => none
    | some (.error e) => some (.error e)
    | some (.ok page) =>
      let listing : Listing FiledManifest :=
        ⟨listing.items ++ page.items, listing.unreadable ++ page.unreadable⟩
      match page.resumeAfter with
      | some cursor => followPages filter limit pages (some cursor) listing
      | none => some (.ok listing)

end Plans

end Pipette
