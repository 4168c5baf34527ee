import Pipette.Store.Paging

/-! Following the cursor decides every file once, in key order. A page decides the files between its
cursor and the next one, and two such spans that meet make one. -/
namespace Pipette

section Keyspace

variable {T Id Bytes : Type} {text : Id → String} {parseId : String → Option Id}

theorem eq_of_stripSuffix {ending : String} {value rest : List Char}
    (h : stripSuffix ending value = some rest) : value = rest ++ ending.toList := by
  unfold stripSuffix at h
  split at h
  · next hsuffix =>
    obtain ⟨start, rfl⟩ := List.isSuffixOf_iff_suffix.mp hsuffix
    cases h
    rw [List.length_append, Nat.add_sub_cancel, List.take_left]
  · cases h

theorem leaf_of_id {leaf : String} {id : Id} (h : flatKeyspaceId text parseId leaf = some id) :
    leaf = text id ++ ".json" := by
  unfold flatKeyspaceId at h
  obtain ⟨stem, hstem, h⟩ := Option.bind_eq_some_iff.mp h
  obtain ⟨id', -, h⟩ := Option.bind_eq_some_iff.mp h
  split at h
  · next htext =>
    cases h
    rw [htext, ← String.toList_inj, String.toList_append, String.toList_ofList]
    exact eq_of_stripSuffix hstem
  · cases h

variable (text parseId)

def Lists (view : DirView Bytes) (leaf : String) : Prop :=
  ∃ names, view.readDir = .ok names ∧ leaf ∈ names ∧ (flatKeyspaceId text parseId leaf).isSome

/-- The files after `lo` and up to `hi` are decided in key order, each as one of the views has it. A
file that all the views agree on is among them. -/
structure Span (views : List (DirView Bytes)) (lo hi : Option String)
    (decided : List (String × Option Bytes)) : Prop where
  sorted : decided.Pairwise fun x y => x.1 < y.1
  above : ∀ x ∈ decided, ∀ a ∈ lo, a < x.1
  below : ∀ x ∈ decided, ∀ b ∈ hi, x.1 ≤ b
  read : ∀ x ∈ decided, ∃ view ∈ views, Lists text parseId view x.1 ∧ view.read x.1 = .ok x.2
  all : ∀ leaf data, (∀ view ∈ views, Lists text parseId view leaf ∧ view.read leaf = .ok data) →
    (∀ a ∈ lo, a < leaf) → (∀ b ∈ hi, leaf ≤ b) → (leaf, data) ∈ decided
  order : ∀ a ∈ lo, ∀ b ∈ hi, a < b
  last : ∀ b ∈ hi, ∃ view ∈ views, Lists text parseId view b

variable {text parseId} {views views' : List (DirView Bytes)} {lo hi : Option String} {m : String}
  {decided decided' : List (String × Option Bytes)}

theorem Span.mono (h : Span text parseId views lo hi decided) (hsub : views ⊆ views') :
    Span text parseId views' lo hi decided where
  sorted := h.sorted
  above := h.above
  below := h.below
  read := fun x hx => by
    obtain ⟨view, hview, hread⟩ := h.read x hx
    exact ⟨view, hsub hview, hread⟩
  all := fun leaf data hsame => h.all leaf data fun view hview => hsame view (hsub hview)
  order := h.order
  last := fun b hb => by
    obtain ⟨view, hview, hlists⟩ := h.last b hb
    exact ⟨view, hsub hview, hlists⟩

theorem Span.append (h : Span text parseId views lo (some m) decided)
    (h' : Span text parseId views' (some m) hi decided') :
    Span text parseId (views ++ views') lo hi (decided ++ decided') where
  sorted := by
    refine List.pairwise_append.mpr ⟨h.sorted, h'.sorted, fun x hx y hy => ?_⟩
    exact lt_of_le_of_lt (h.below x hx m rfl) (h'.above y hy m rfl)
  above := fun x hx a ha => by
    obtain hx | hx := List.mem_append.mp hx
    · exact h.above x hx a ha
    · exact lt_trans (h.order a ha m rfl) (h'.above x hx m rfl)
  below := fun x hx b hb => by
    obtain hx | hx := List.mem_append.mp hx
    · exact le_trans (h.below x hx m rfl) (le_of_lt (h'.order m rfl b hb))
    · exact h'.below x hx b hb
  read := fun x hx => by
    obtain hx | hx := List.mem_append.mp hx
    · exact (h.mono (List.subset_append_left _ _)).read x hx
    · exact (h'.mono (List.subset_append_right _ _)).read x hx
  all := fun leaf data hsame ha hb => by
    obtain hle | hlt := le_or_gt leaf m
    · refine List.mem_append_left _ (h.all leaf data (fun view hview => ?_) ha ?_)
      · exact hsame view (List.mem_append_left _ hview)
      · rintro _ ⟨⟩
        exact hle
    · refine List.mem_append_right _ (h'.all leaf data (fun view hview => ?_) ?_ hb)
      · exact hsame view (List.mem_append_right _ hview)
      · rintro _ ⟨⟩
        exact hlt
  order := fun a ha b hb => lt_trans (h.order a ha m rfl) (h'.order m rfl b hb)
  last := fun b hb => (h'.mono (List.subset_append_right _ _)).last b hb

variable (dir : String) (decode : Bytes → Except String T) (admits : T → Bool)

def rowOf (data : Bytes) : Option T :=
  match decode data with
  | .ok record => if admits record then some record else none
  | .error _ => none

def reportOf (leaf : String) (data : Bytes) : Option UnreadableObject :=
  match decode data with
  | .ok _ => none
  | .error reason => some ⟨dir ++ "/" ++ leaf, reason⟩

def rows (decided : List (String × Option Bytes)) : List T :=
  decided.filterMap fun x => x.2.bind (rowOf decode admits)

def reports (decided : List (String × Option Bytes)) : List UnreadableObject :=
  decided.filterMap fun x => x.2.bind (reportOf dir decode x.1)

variable {dir decode admits} {view : DirView Bytes} {limit : NonZero} {page page' : Page T Id}

theorem examine_eq_ok {leaf : String}
    (h : page.examine dir decode admits view leaf = .ok page') : ∃ data, view.read leaf = .ok data ∧
      page'.items = page.items ++ rows decode admits [(leaf, data)] ∧
      page'.unreadable = page.unreadable ++ reports dir decode [(leaf, data)] ∧
      page'.resumeAfter = page.resumeAfter := by
  obtain ⟨data, hdata, h⟩ := Result.bind_eq_ok h
  refine ⟨data, hdata, ?_⟩
  cases data with
  | none =>
    cases h
    simp [rows, reports]
  | some data =>
    simp only [rows, reports, List.filterMap_cons, List.filterMap_nil, Option.bind_some, rowOf,
      reportOf]
    dsimp only at h
    cases hdecode : decode data with
    | error reason =>
      rw [hdecode] at h
      cases h
      simp
    | ok record =>
      rw [hdecode] at h
      cases hrow : admits record <;>
      · simp only [hrow, if_true, Bool.false_eq_true, if_false] at h
        cases h
        simp [hrow]

theorem fill_eq_ok {candidates : List (String × Id)} (hstart : page.resumeAfter = none)
    (h : Page.fill dir decode admits limit view page candidates = .ok page') :
    ∃ examined rest decided, candidates = examined ++ rest ∧
      decided.map Prod.fst = examined.map Prod.fst ∧ (∀ x ∈ decided, view.read x.1 = .ok x.2) ∧
      page'.items = page.items ++ rows decode admits decided ∧
      page'.unreadable = page.unreadable ++ reports dir decode decided ∧
      (rest = [] ∧ page'.resumeAfter = none ∨
        ∃ c, examined.getLast? = some c ∧ page'.resumeAfter = some c.2) := by
  induction candidates generalizing page with
  | nil =>
    cases h
    exact ⟨[], [], [], rfl, rfl, by simp, by simp [rows], by simp [reports], .inl ⟨rfl, hstart⟩⟩
  | cons c candidates ih =>
    obtain ⟨leaf, id⟩ := c
    obtain ⟨page₁, hexamine, h⟩ := Result.bind_eq_ok h
    obtain ⟨data, hread, hitems, hunreadable, hresume⟩ := examine_eq_ok hexamine
    split at h
    · cases h
      refine ⟨[(leaf, id)], candidates, [(leaf, data)], rfl, rfl, by simpa using hread, hitems,
        hunreadable, ?_⟩
      cases candidates with
      | nil => exact .inl ⟨rfl, rfl⟩
      | cons => exact .inr ⟨(leaf, id), rfl, rfl⟩
    · obtain ⟨examined, rest, decided, hsplit, hleaves, hreads, hitems', hunreadable', hend⟩ :=
        ih (hresume.trans hstart) h
      refine ⟨(leaf, id) :: examined, rest, (leaf, data) :: decided, by rw [hsplit]; rfl,
        by simp [hleaves], by simpa [hread] using hreads, ?_, ?_, ?_⟩
      · rw [hitems', hitems, List.append_assoc, rows, rows, ← List.filterMap_append]
        rfl
      · rw [hunreadable', hunreadable, List.append_assoc, reports, reports,
          ← List.filterMap_append]
        rfl
      · refine hend.imp_right fun ⟨c, hlast, hc⟩ => ⟨c, ?_, hc⟩
        rw [List.getLast?_cons, hlast]
        rfl

abbrev cursorKey (text : Id → String) (after : Option Id) : Option String :=
  after.map fun id => text id ++ ".json"

theorem mem_pageCandidates {names : List String} {after : Option Id} {c : String × Id} :
    c ∈ pageCandidates text parseId after names ↔ c.1 ∈ names ∧
      flatKeyspaceId text parseId c.1 = some c.2 ∧ ∀ a ∈ cursorKey text after, a < c.1 := by
  have hmem : c ∈ Assoc.sortByKey (names.filterMap fun leaf =>
      (flatKeyspaceId text parseId leaf).map fun id => (leaf, id)) ↔
      c.1 ∈ names ∧ flatKeyspaceId text parseId c.1 = some c.2 := by
    rw [Assoc.mem_sortByKey, List.mem_filterMap]
    constructor
    · rintro ⟨leaf, hleaf, h⟩
      obtain ⟨id, hid, rfl⟩ := Option.map_eq_some_iff.mp h
      exact ⟨hleaf, hid⟩
    · rintro ⟨hleaf, hid⟩
      exact ⟨c.1, hleaf, by rw [hid]; rfl⟩
  unfold pageCandidates cursorKey
  cases after with
  | none => simpa using hmem
  | some id =>
    simp only [Option.map_some, List.mem_filter, hmem, decide_eq_true_eq]
    simp [and_assoc]

variable (text parseId) in
theorem pageCandidates_sorted {names : List String} (hnodup : names.Nodup) (after : Option Id) :
    (pageCandidates text parseId after names).Pairwise fun c d => c.1 < d.1 := by
  have hdistinct : Assoc.Distinct (names.filterMap fun leaf =>
      (flatKeyspaceId text parseId leaf).map fun id => (leaf, id)) := by
    refine hnodup.sublist ?_
    clear hnodup
    induction names with
    | nil => exact .slnil
    | cons leaf names ih =>
      rw [List.filterMap_cons]
      cases flatKeyspaceId text parseId leaf with
      | none => exact ih.cons leaf
      | some id => exact ih.cons_cons leaf
  have hsorted := Assoc.pairwise_sortByKey hdistinct
  unfold pageCandidates
  split
  · exact hsorted.filter _
  · exact hsorted

theorem pageFlatKeyspace_span {after : Option Id}
    (h : pageFlatKeyspace text parseId dir decode admits after limit view = .ok page) :
    ∃ decided, Span text parseId [view] (cursorKey text after) (cursorKey text page.resumeAfter)
        decided ∧
      page.items = rows decode admits decided ∧ page.unreadable = reports dir decode decided := by
  obtain ⟨names, hnames, h⟩ := Result.bind_eq_ok h
  obtain ⟨examined, rest, decided, hsplit, hleaves, hreads, hitems, hunreadable, hend⟩ :=
    fill_eq_ok rfl h
  have hsorted := pageCandidates_sorted text parseId (view.nodup names hnames) after
  rw [hsplit] at hsorted
  have hcandidate : ∀ x ∈ decided, ∃ id, (x.1, id) ∈ examined := by
    intro x hx
    have hx' : x.1 ∈ examined.map Prod.fst := hleaves ▸ List.mem_map_of_mem hx
    obtain ⟨c, hc, hcx⟩ := List.mem_map.mp hx'
    exact ⟨c.2, hcx ▸ hc⟩
  have hspec : ∀ c ∈ examined, c.1 ∈ names ∧ flatKeyspaceId text parseId c.1 = some c.2 ∧
      ∀ a ∈ cursorKey text after, a < c.1 := by
    intro c hc
    exact mem_pageCandidates.mp (hsplit ▸ List.mem_append_left _ hc)
  have hlists : ∀ c ∈ examined, Lists text parseId view c.1 := by
    intro c hc
    obtain ⟨hname, hid, -⟩ := hspec c hc
    exact ⟨names, hnames, hname, hid ▸ rfl⟩
  -- the last candidate is the greatest
  have hbound : ∀ b ∈ cursorKey text page.resumeAfter, ∃ c ∈ examined, c.1 = b ∧
      (∀ d ∈ examined, d.1 ≤ b) ∧ ∀ d ∈ rest, b < d.1 := by
    intro b hb
    obtain ⟨-, hnone⟩ | ⟨c, hlast, hresume⟩ := hend
    · rw [hnone] at hb
      cases hb
    · obtain ⟨front, rfl⟩ := List.getLast?_eq_some_iff.mp hlast
      have hc : c ∈ front ++ [c] := by simp
      have hcb : c.1 = b := by
        rw [hresume] at hb
        cases hb
        exact leaf_of_id (hspec c hc).2.1
      obtain ⟨hfront, -, hrest⟩ := List.pairwise_append.mp hsorted
      obtain ⟨-, -, hfront⟩ := List.pairwise_append.mp hfront
      refine ⟨c, hc, hcb, fun d hd => ?_, fun d hd => hcb ▸ hrest c hc d hd⟩
      obtain hd | hd := List.mem_append.mp hd
      · exact hcb ▸ le_of_lt (hfront d hd c (by simp))
      · cases List.mem_singleton.mp hd
        exact le_of_eq hcb
  refine ⟨decided, ?_, hitems, hunreadable⟩
  constructor
  · refine List.pairwise_map.mp (?_ : (decided.map Prod.fst).Pairwise (· < ·))
    rw [hleaves]
    exact List.pairwise_map.mpr (List.pairwise_append.mp hsorted).1
  · intro x hx a ha
    obtain ⟨id, hid⟩ := hcandidate x hx
    exact (hspec _ hid).2.2 a ha
  · intro x hx b hb
    obtain ⟨id, hid⟩ := hcandidate x hx
    obtain ⟨-, -, -, hle, -⟩ := hbound b hb
    exact hle _ hid
  · intro x hx
    obtain ⟨id, hid⟩ := hcandidate x hx
    exact ⟨view, by simp, hlists _ hid, hreads x hx⟩
  · intro leaf data hsame hlo hhi
    obtain ⟨⟨names', hnames', hname, hid⟩, hread⟩ := hsame view (by simp)
    cases hnames.symm.trans hnames'
    obtain ⟨id, hid⟩ := Option.isSome_iff_exists.mp hid
    have hmem : (leaf, id) ∈ examined ++ rest :=
      hsplit ▸ mem_pageCandidates.mpr ⟨hname, hid, hlo⟩
    have hexamined : (leaf, id) ∈ examined := by
      refine (List.mem_append.mp hmem).resolve_right fun hrest => ?_
      obtain ⟨hnil, -⟩ | ⟨c, -, hresume⟩ := hend
      · simp [hnil] at hrest
      · have hb : text c.2 ++ ".json" ∈ cursorKey text page.resumeAfter := by simp [hresume]
        obtain ⟨-, -, -, -, hlt⟩ := hbound _ hb
        exact absurd (hhi _ hb) (not_le_of_gt (hlt _ hrest))
    have hleaf : leaf ∈ decided.map Prod.fst := by
      rw [hleaves]
      exact List.mem_map_of_mem hexamined
    obtain ⟨x, hx, rfl⟩ := List.mem_map.mp hleaf
    have hdata : x.2 = data := Except.ok.inj ((hreads x hx).symm.trans hread)
    exact hdata ▸ hx
  · intro a ha b hb
    obtain ⟨c, hc, rfl, -⟩ := hbound b hb
    exact (hspec c hc).2.2 a ha
  · intro b hb
    obtain ⟨c, hc, rfl, -⟩ := hbound b hb
    exact ⟨view, by simp, hlists c hc⟩

theorem pageFlatKeyspace_ok {names : List String} (hnames : view.readDir = .ok names)
    (hread : ∀ leaf ∈ names, ∃ data, view.read leaf = .ok data) (after : Option Id) :
    ∃ page, pageFlatKeyspace text parseId dir decode admits after limit view = .ok page := by
  have hfill : ∀ (candidates : List (String × Id)) (page : Page T Id),
      (∀ c ∈ candidates, c.1 ∈ names) →
      ∃ page', Page.fill dir decode admits limit view page candidates = .ok page' := by
    intro candidates
    induction candidates with
    | nil => exact fun page _ => ⟨page, rfl⟩
    | cons c candidates ih =>
      intro page hmem
      obtain ⟨data, hdata⟩ := hread c.1 (hmem c (by simp))
      have hexamine : ∃ page', page.examine dir decode admits view c.1 = .ok page' := by
        unfold Page.examine
        rw [hdata]
        simp only [bind, Except.bind]
        split
        · exact ⟨_, rfl⟩
        · split
          · split <;> exact ⟨_, rfl⟩
          · exact ⟨_, rfl⟩
      obtain ⟨page', hpage'⟩ := hexamine
      simp only [Page.fill, hpage', bind, Except.bind]
      split
      · exact ⟨_, rfl⟩
      · exact ih page' fun d hd => hmem d (List.mem_cons_of_mem c hd)
  unfold pageFlatKeyspace
  simp only [hnames, bind, Except.bind]
  exact hfill _ _ fun c hc => (mem_pageCandidates.mp hc).1

end Keyspace

section Plans

variable {Bytes : Type} {decode : Bytes → Except String FiledManifest} {filter : PlanFilter}
  {limit : NonZero} {views : List (DirView Bytes)} {pages : List (List (DirView Bytes))}
  {after : Option PlanId} {page page' : PlanPage} {listing listing' : Listing FiledManifest}

abbrev planKey : Option PlanId → Option String := cursorKey PlanId.raw

abbrev PlanSpan : List (DirView Bytes) → Option String → Option String →
    List (String × Option Bytes) → Prop := Span PlanId.raw PlanId.tryNew

theorem rows_filter (decided : List (String × Option Bytes)) :
    (rows decode (fun manifest => filter.status.all fun wanted => manifest.status = wanted)
      decided).filter filter.admits = rows decode filter.admits decided := by
  have hstatus : ∀ manifest, filter.admits manifest = true →
      (filter.status.all fun wanted => manifest.status = wanted) = true := by
    intro manifest h
    simp only [PlanFilter.admits, Bool.and_eq_true] at h
    exact h.1.1.1
  unfold rows
  rw [List.filter_filterMap]
  refine List.filterMap_congr fun x _ => ?_
  cases x.2 with
  | none => rfl
  | some data =>
    simp only [Option.bind_some, rowOf]
    cases decode data with
    | error reason => rfl
    | ok manifest =>
      cases hadmits : filter.admits manifest with
      | true => simp [hstatus manifest hadmits, hadmits]
      | false =>
        dsimp only
        split <;> simp [hadmits]

theorem rows_append {T : Type} {decode : Bytes → Except String T} {admits : T → Bool}
    (a b : List (String × Option Bytes)) :
    rows decode admits (a ++ b) = rows decode admits a ++ rows decode admits b :=
  List.filterMap_append

theorem reports_append {T : Type} {dir : String} {decode : Bytes → Except String T}
    (a b : List (String × Option Bytes)) :
    reports dir decode (a ++ b) = reports dir decode a ++ reports dir decode b :=
  List.filterMap_append

theorem pageMatchingPlans_span (hresume : limit - page.items.length = 0 → page.resumeAfter = after)
    (h : pageMatchingPlans decode filter limit views after page = some (.ok page')) :
    (page' = page ∧ limit - page.items.length = 0) ∨
    ∃ decided, PlanSpan views (planKey after) (planKey page'.resumeAfter) decided ∧
      page'.items = page.items ++ rows decode filter.admits decided ∧
      page'.unreadable = page.unreadable ++ reports "plans" decode decided := by
  induction views generalizing after page with
  | nil =>
    simp only [pageMatchingPlans] at h
    split at h
    · next hfull =>
      cases h
      exact .inl ⟨rfl, hfull⟩
    · cases h
  | cons view views ih =>
    rw [pageMatchingPlans] at h
    split at h
    · next hlacks =>
      split at h
      · cases h
      · next inner hinner =>
        obtain ⟨decided, hspan, hitems, hunreadable⟩ := pageFlatKeyspace_span hinner
        have hrows : inner.items.filter filter.admits = rows decode filter.admits decided := by
          rw [hitems, rows_filter]
        refine .inr ?_
        split at h
        · next next hnext =>
          rw [hnext] at hspan
          have hrest := fun hr => ih hr h
          obtain ⟨rfl, -⟩ | ⟨decided', hspan', hitems', hunreadable'⟩ := hrest fun _ => hnext
          · refine ⟨decided, ?_, congrArg (page.items ++ ·) hrows,
              congrArg (page.unreadable ++ ·) hunreadable⟩
            dsimp only
            rw [hnext]
            exact hspan.mono (by simp)
          · refine ⟨decided ++ decided', hspan.append hspan', ?_, ?_⟩
            · rw [hitems', rows_append, ← hrows, List.append_assoc]
            · rw [hunreadable', reports_append, ← hunreadable, List.append_assoc]
        · next hnone =>
          cases h
          exact ⟨decided, hspan.mono (by simp), congrArg (page.items ++ ·) hrows,
            congrArg (page.unreadable ++ ·) hunreadable⟩
    · next hfull =>
      cases h
      exact .inl ⟨rfl, by omega⟩

theorem listMatchingPlans_span
    (h : listMatchingPlans decode filter after limit views = some (.ok page)) :
    ∃ decided, PlanSpan views (planKey after) (planKey page.resumeAfter) decided ∧
      page.items = rows decode filter.admits decided ∧
      page.unreadable = reports "plans" decode decided := by
  have hempty : limit - (⟨[], [], none⟩ : PlanPage).items.length ≠ 0 := by
    have := limit.2
    simp only [List.length_nil]
    omega
  obtain ⟨-, hfull⟩ | h := pageMatchingPlans_span (fun hfull => absurd hfull hempty) h
  · exact absurd hfull hempty
  · simpa using h

theorem followPages_span (h : followPages decode filter limit pages after listing =
      some (.ok listing')) :
    ∃ decided, PlanSpan pages.flatten (planKey after) none decided ∧
      listing'.items = listing.items ++ rows decode filter.admits decided ∧
      listing'.unreadable = listing.unreadable ++ reports "plans" decode decided := by
  induction pages generalizing after listing with
  | nil => cases h
  | cons views pages ih =>
    rw [followPages] at h
    split at h
    · cases h
    · cases h
    · next page hpage =>
      obtain ⟨decided, hspan, hitems, hunreadable⟩ := listMatchingPlans_span hpage
      rw [List.flatten_cons]
      split at h
      · next cursor hcursor =>
        rw [hcursor] at hspan
        obtain ⟨decided', hspan', hitems', hunreadable'⟩ := ih h
        refine ⟨decided ++ decided', hspan.append hspan', ?_, ?_⟩
        · rw [hitems', rows_append, ← hitems, List.append_assoc]
        · rw [hunreadable', reports_append, ← hunreadable, List.append_assoc]
      · next hend =>
        cases h
        rw [hend] at hspan
        exact ⟨decided, hspan.mono (by simp), by rw [← hitems], by rw [← hunreadable]⟩

def Readable (names : List String) (view : DirView Bytes) : Prop :=
  ∃ listed, view.readDir = .ok listed ∧ listed ⊆ names ∧
    ∀ leaf ∈ listed, ∃ data, view.read leaf = .ok data

def namesAfter (names : List String) (cursor : Option String) : List String :=
  names.filter fun name => cursor.all fun a => a < name

theorem namesAfter_lt {names : List String} {cursor : Option String} {b : String} (hb : b ∈ names)
    (hlt : ∀ a ∈ cursor, a < b) :
    (namesAfter names (some b)).length < (namesAfter names cursor).length := by
  have hfilter : namesAfter names (some b) =
      (namesAfter names cursor).filter fun name => decide (b < name) := by
    unfold namesAfter
    rw [List.filter_filter]
    refine List.filter_congr fun name _ => Bool.eq_iff_iff.mpr ?_
    cases cursor with
    | none => simp only [Option.all_some, Option.all_none, Bool.and_true]
    | some a =>
      simp only [Option.all_some, Bool.and_eq_true, decide_eq_true_eq]
      exact ⟨fun hbn => ⟨hbn, lt_trans (hlt a rfl) hbn⟩, fun h => h.1⟩
  rw [hfilter]
  have hnot : ¬ decide (b < b) = true := by simp only [lt_irrefl, decide_false, Bool.false_eq_true,
    not_false_eq_true]
  refine List.length_filter_lt_length_iff_exists.mpr ⟨b, List.mem_filter.mpr ⟨hb, ?_⟩, hnot⟩
  cases cursor with
  | none => rfl
  | some a => exact decide_eq_true (hlt a rfl)

theorem Span.last_mem {names : List String} {lo hi : Option String}
    {decided : List (String × Option Bytes)} (h : PlanSpan views lo hi decided)
    (hreadable : ∀ view ∈ views, Readable names view) : ∀ b ∈ hi, b ∈ names := by
  intro b hb
  obtain ⟨view, hview, listed, hlisted, hmem, -⟩ := h.last b hb
  obtain ⟨listed', hlisted', hsub, -⟩ := hreadable view hview
  cases hlisted.symm.trans hlisted'
  exact hsub hmem

theorem pageMatchingPlans_ok {names : List String}
    (hreadable : ∀ view ∈ views, Readable names view)
    (hlong : (namesAfter names (planKey after)).length < views.length) :
    ∃ page', pageMatchingPlans decode filter limit views after page = some (.ok page') := by
  induction views generalizing after page with
  | nil => cases hlong
  | cons view views ih =>
    rw [pageMatchingPlans]
    split
    · next hlacks =>
      obtain ⟨listed, hlisted, hsub, hread⟩ := hreadable view (by simp)
      obtain ⟨inner, hinner⟩ : ∃ inner, listPlansByStatus decode filter.status after
        ⟨limit - page.items.length, hlacks⟩ view = .ok inner :=
          pageFlatKeyspace_ok hlisted hread after
      obtain ⟨decided, hspan, -, -⟩ := pageFlatKeyspace_span hinner
      rw [hinner]
      dsimp only
      split
      · next next hnext =>
        rw [hnext] at hspan
        have hmem : next.raw ++ ".json" ∈ names :=
          hspan.last_mem (by simpa using hreadable view (by simp)) _ rfl
        have hfewer : (namesAfter names (planKey (some next))).length <
          (namesAfter names (planKey after)).length :=
            namesAfter_lt hmem fun a ha => hspan.order a ha _ rfl
        refine ih (fun v hv => hreadable v (List.mem_cons_of_mem view hv)) ?_
        rw [List.length_cons] at hlong
        omega
      · exact ⟨_, rfl⟩
    · exact ⟨_, rfl⟩

theorem followPages_ok (names : List String)
    (hreadable : ∀ views ∈ pages, names.length < views.length ∧ ∀ view ∈ views, Readable names view)
    (hlong : (namesAfter names (planKey after)).length < pages.length) :
    ∃ listing', followPages decode filter limit pages after listing = some (.ok listing') := by
  induction pages generalizing after listing with
  | nil => cases hlong
  | cons views pages ih =>
    obtain ⟨hmany, hviews⟩ := hreadable views (by simp)
    have henough : (namesAfter names (planKey after)).length < views.length :=
      lt_of_le_of_lt (List.length_filter_le _ _) hmany
    obtain ⟨page, hpage⟩ : ∃ page, listMatchingPlans decode filter after limit views =
      some (.ok page) := pageMatchingPlans_ok hviews henough
    obtain ⟨decided, hspan, -, -⟩ := listMatchingPlans_span hpage
    simp only [followPages, hpage]
    split
    · next cursor hcursor =>
      rw [hcursor] at hspan
      have hmem : cursor.raw ++ ".json" ∈ names := hspan.last_mem hviews _ rfl
      have hfewer : (namesAfter names (planKey (some cursor))).length <
        (namesAfter names (planKey after)).length :=
          namesAfter_lt hmem fun a ha => hspan.order a ha _ rfl
      refine ih (fun v hv => hreadable v (List.mem_cons_of_mem views hv)) ?_
      rw [List.length_cons] at hlong
      omega
    · exact ⟨_, rfl⟩

theorem mem_planFiles {names : List String} {leaf : String} :
    leaf ∈ (pageCandidates PlanId.raw PlanId.tryNew none names).map Prod.fst ↔
      leaf ∈ names ∧ (flatKeyspaceId PlanId.raw PlanId.tryNew leaf).isSome := by
  rw [List.mem_map]
  constructor
  · rintro ⟨c, hc, rfl⟩
    obtain ⟨hname, hid, -⟩ := mem_pageCandidates.mp hc
    exact ⟨hname, hid ▸ rfl⟩
  · rintro ⟨hname, hid⟩
    obtain ⟨id, hid⟩ := Option.isSome_iff_exists.mp hid
    exact ⟨(leaf, id), mem_pageCandidates.mpr ⟨hname, hid, by simp⟩, rfl⟩

theorem followPages_unchanged {view : DirView Bytes} {names leaves : List String}
    {files : String → Option Bytes} (hnames : view.readDir = .ok names)
    (hfiles : ∀ leaf, view.read leaf = .ok (files leaf)) (hsorted : leaves.Pairwise (· < ·))
    (hleaves : ∀ leaf, leaf ∈ leaves ↔
      leaf ∈ names ∧ (flatKeyspaceId PlanId.raw PlanId.tryNew leaf).isSome)
    {n : Nat} (hn : names.length < n) :
    followPages decode filter limit (List.replicate n (List.replicate n view)) none ⟨[], []⟩ =
      some (.ok ⟨rows decode filter.admits (leaves.map fun leaf => (leaf, files leaf)),
        reports "plans" decode (leaves.map fun leaf => (leaf, files leaf))⟩) := by
  have hreadable : Readable names view :=
    ⟨names, hnames, fun _ h => h, fun leaf _ => ⟨files leaf, hfiles leaf⟩⟩
  have hend : ∃ listing', followPages decode filter limit
      (List.replicate n (List.replicate n view)) none ⟨[], []⟩ = some (.ok listing') := by
    refine followPages_ok names (fun views hviews => ?_) ?_
    · cases List.eq_of_mem_replicate hviews
      rw [List.length_replicate]
      exact ⟨hn, fun v hv => List.eq_of_mem_replicate hv ▸ hreadable⟩
    · rw [List.length_replicate]
      exact lt_of_le_of_lt (List.length_filter_le _ _) hn
  obtain ⟨⟨items, unreadable⟩, hlisting⟩ := hend
  obtain ⟨decided, hspan, hitems, hunreadable⟩ := followPages_span hlisting
  have hview : ∀ v ∈ (List.replicate n (List.replicate n view)).flatten, v = view := by
    intro v hv
    obtain ⟨views, hviews, hv⟩ := List.mem_flatten.mp hv
    cases List.eq_of_mem_replicate hviews
    exact List.eq_of_mem_replicate hv
  have hdecided : decided = leaves.map fun leaf => (leaf, files leaf) := by
    refine Assoc.eq_of_increasing hspan.sorted (List.pairwise_map.mpr hsorted) fun x => ?_
    rw [List.mem_map]
    constructor
    · intro hx
      obtain ⟨v, hv, ⟨names', hnames', hname, hid⟩, hread⟩ := hspan.read x hx
      cases hview v hv
      cases hnames.symm.trans hnames'
      have hdata : files x.1 = x.2 := Except.ok.inj ((hfiles x.1).symm.trans hread)
      exact ⟨x.1, (hleaves x.1).mpr ⟨hname, hid⟩, by rw [hdata]⟩
    · rintro ⟨leaf, hleaf, rfl⟩
      obtain ⟨hname, hid⟩ := (hleaves leaf).mp hleaf
      refine hspan.all leaf (files leaf) (fun v hv => ?_) (by simp) (by simp)
      cases hview v hv
      exact ⟨⟨names, hnames, hname, hid⟩, hfiles leaf⟩
  rw [hlisting, ← hdecided]
  simp only [List.nil_append] at hitems hunreadable
  rw [hitems, hunreadable]

/-- For every filter and page size, the walk over a directory that stays as it is ends, and has every
plan file once in key order. Where files come, change and go between the requests, every file is
decided at most once and in key order, as some request saw it, and one that all the requests saw
alike is decided. -/
theorem followPages_complete (decode : Bytes → Except String FiledManifest) (filter : PlanFilter)
    (limit : NonZero) :
    (∀ (view : DirView Bytes) (names : List String) (files : String → Option Bytes),
      view.readDir = .ok names → (∀ leaf, view.read leaf = .ok (files leaf)) →
      ∃ leaves : List String, leaves.Pairwise (· < ·) ∧
        (∀ leaf, leaf ∈ leaves ↔
          leaf ∈ names ∧ (flatKeyspaceId PlanId.raw PlanId.tryNew leaf).isSome) ∧
        ∀ n, names.length < n →
          followPages decode filter limit (List.replicate n (List.replicate n view)) none ⟨[], []⟩ =
            some (.ok ⟨rows decode filter.admits (leaves.map fun leaf => (leaf, files leaf)),
              reports "plans" decode (leaves.map fun leaf => (leaf, files leaf))⟩)) ∧
    ∀ (pages : List (List (DirView Bytes))) (listing : Listing FiledManifest),
      followPages decode filter limit pages none ⟨[], []⟩ = some (.ok listing) →
      ∃ decided : List (String × Option Bytes), (decided.Pairwise fun x y => x.1 < y.1) ∧
        listing.items = rows decode filter.admits decided ∧
        listing.unreadable = reports "plans" decode decided ∧
        (∀ x ∈ decided, ∃ view ∈ pages.flatten, Lists PlanId.raw PlanId.tryNew view x.1 ∧
          view.read x.1 = .ok x.2) ∧
        ∀ leaf data, (∀ view ∈ pages.flatten, Lists PlanId.raw PlanId.tryNew view leaf ∧
          view.read leaf = .ok data) → (leaf, data) ∈ decided := by
  refine ⟨fun view names files hnames hfiles => ?_, fun pages listing h => ?_⟩
  · refine ⟨(pageCandidates PlanId.raw PlanId.tryNew none names).map Prod.fst, ?_, ?_, ?_⟩
    · exact List.pairwise_map.mpr (pageCandidates_sorted _ _ (view.nodup names hnames) none)
    · exact fun leaf => mem_planFiles
    · intro n hn
      refine followPages_unchanged hnames hfiles ?_ (fun leaf => mem_planFiles) hn
      exact List.pairwise_map.mpr (pageCandidates_sorted _ _ (view.nodup names hnames) none)
  · obtain ⟨decided, hspan, hitems, hunreadable⟩ := followPages_span h
    exact ⟨decided, hspan.sorted, hitems, hunreadable, hspan.read,
      fun leaf data hsame => hspan.all leaf data hsame (by simp) (by simp)⟩

/-- A file holds a manifest, or was cut to nothing. -/
def decodeFile : Option FiledManifest → Except String FiledManifest
  | some m => .ok m
  | none => .error "EOF while parsing a value at line 1 column 0"

def activePlan (id : String) (campaign : Option CampaignId) : FiledManifest where
  planId := ⟨id⟩
  status := .active
  createdAt := 0
  jobIds := []
  expiredJobs := ∅
  settledJobs := ∅
  progressSnapshot := none
  terminalAt := none
  campaignId := campaign
  submittedBy := none

/-- "b" cannot be read, and "c" is of no campaign. -/
def shelvedFile (leaf : String) : Option (Option FiledManifest) :=
  match leaf with
  | "a.json" => some (some (activePlan "a" (some ⟨"spring"⟩)))
  | "b.json" => some none
  | "c.json" => some (some (activePlan "c" none))
  | "d.json" => some (some (activePlan "d" (some ⟨"spring"⟩)))
  | _ => none

def shelf (names : List String) (hnodup : names.Nodup) : DirView (Option FiledManifest) where
  readDir := .ok names
  read leaf := .ok (shelvedFile leaf)
  nodup _ h := Except.ok.inj h ▸ hnodup

def wholeShelf : DirView (Option FiledManifest) :=
  shelf ["d.json", "c.json", "b.json", "a.json", "notes.txt"] (by decide)

def springPlans : PlanFilter := ⟨some .active, some ⟨"spring"⟩, none, none⟩

/-- Pages of one plan. The first is full at "a"; the second passes "b" and "c" and is full at "d", also
when "a" is gone by then. -/
theorem followPages_complete_refilled :
    (∃ leaves : List String, leaves.Pairwise (· < ·) ∧ "b.json" ∈ leaves ∧ "notes.txt" ∉ leaves ∧
      followPages decodeFile springPlans ⟨1, by decide⟩
        (List.replicate 6 (List.replicate 6 wholeShelf)) none ⟨[], []⟩ =
        some (.ok ⟨rows decodeFile springPlans.admits (leaves.map fun leaf => (leaf, shelvedFile leaf)),
          reports "plans" decodeFile (leaves.map fun leaf => (leaf, shelvedFile leaf))⟩)) ∧
    ∃ listing decided, followPages decodeFile springPlans ⟨1, by decide⟩
        [[wholeShelf], List.replicate 3 (shelf ["c.json", "d.json", "b.json"] (by decide))] none
        ⟨[], []⟩ = some (.ok listing) ∧
      listing.items.map (·.planId.raw) = ["a", "d"] ∧
      listing.unreadable.map (·.key) = ["plans/b.json"] ∧
      listing.items = rows decodeFile springPlans.admits decided ∧
      (decided.Pairwise fun x y => x.1 < y.1) ∧ ("c.json", shelvedFile "c.json") ∈ decided := by
  have hcomplete := followPages_complete decodeFile springPlans ⟨1, by decide⟩
  constructor
  · obtain ⟨leaves, hsorted, hmem, hend⟩ := hcomplete.1 wholeShelf
      ["d.json", "c.json", "b.json", "a.json", "notes.txt"] shelvedFile rfl fun _ => rfl
    refine ⟨leaves, hsorted, (hmem _).mpr ⟨by decide, by decide +kernel⟩, fun hnotes => ?_, ?_⟩
    · exact absurd ((hmem _).mp hnotes).2 (by decide +kernel)
    · exact hend 6 (by decide)
  · let later := shelf ["c.json", "d.json", "b.json"] (by decide)
    have hids : ((followPages decodeFile springPlans ⟨1, by decide⟩
        [[wholeShelf], List.replicate 3 later] none ⟨[], []⟩).bind Except.toOption).map
          (fun l => (l.items.map (·.planId.raw), l.unreadable.map (·.key))) =
        some (["a", "d"], ["plans/b.json"]) := by
      decide +kernel
    obtain ⟨listing, hlisting, hids⟩ := Option.map_eq_some_iff.mp hids
    obtain ⟨r, hwalk, hr⟩ := Option.bind_eq_some_iff.mp hlisting
    obtain ⟨hplans, hkeys⟩ := Prod.mk.inj hids
    cases r with
    | error e => cases hr
    | ok listing' =>
      cases hr
      obtain ⟨decided, hsorted, hitems, -, -, hseen⟩ := hcomplete.2 _ listing hwalk
      refine ⟨listing, decided, hwalk, hplans, hkeys, hitems, hsorted, hseen _ _ fun view hview => ?_⟩
      obtain rfl | rfl : view = wholeShelf ∨ view = later := by simpa using hview
      · exact ⟨⟨_, rfl, by decide, by decide +kernel⟩, rfl⟩
      · exact ⟨⟨_, rfl, by decide, by decide +kernel⟩, rfl⟩

end Plans

end Pipette
