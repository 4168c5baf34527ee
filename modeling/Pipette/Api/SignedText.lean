import Pipette.Api.HttpSig
import Pipette.Lib.Base64
import Pipette.Lib.Result
import Pipette.Lib.Text

/-! What a signature base says of the request it was taken from, and that a signed request yields
the base that was signed. -/
namespace Pipette.HttpSig

theorem Component.quote_not_mem_text (c : Component) : '"' ∉ c.text.toList := by
  cases c <;> decide

theorem Component.text_ne_params (c : Component) : c.text ≠ "@signature-params" := by
  cases c <;> decide

theorem toList_signatureBase_nil (params : String) :
    (signatureBase params []).toList =
      '"' :: ("@signature-params".toList ++ '"' :: ':' :: ' ' :: params.toList) := by
  have hname : "\"@signature-params\": ".toList =
      '"' :: ("@signature-params".toList ++ ['"', ':', ' ']) := rfl
  change ("\"@signature-params\": " ++ params).toList = _
  rw [String.toList_append, hname, List.cons_append, List.append_assoc]
  rfl

theorem toList_signatureBase_cons (params : String) (x : String × String)
    (rest : List (String × String)) :
    (signatureBase params (x :: rest)).toList = '"' :: (x.1.toList ++ '"' :: ':' :: ' ' ::
      (x.2.toList ++ '\n' :: (signatureBase params rest).toList)) := by
  have hquote : "\"".toList = ['"'] := rfl
  have hcolon : "\": ".toList = ['"', ':', ' '] := rfl
  have hnewline : "\n".toList = ['\n'] := rfl
  change ("\"" ++ x.1 ++ "\": " ++ x.2 ++ "\n" ++ signatureBase params rest).toList = _
  rw [String.toList_append, String.toList_append, String.toList_append, String.toList_append,
    String.toList_append, hquote, hcolon, hnewline]
  simp only [List.cons_append, List.append_assoc, List.nil_append]

def IsLines (lines : List (String × String)) : Prop :=
  ∀ x ∈ lines, (∃ c : Component, x.1 = c.text) ∧ '\n' ∉ x.2.toList

theorem signatureBase_inj {params params' : String} {lines lines' : List (String × String)}
    (hlines : IsLines lines) (hlines' : IsLines lines')
    (h : signatureBase params lines = signatureBase params' lines') :
    lines = lines' ∧ params = params' := by
  induction lines generalizing lines' with
  | nil =>
    cases lines' with
    | nil =>
      have htext := congrArg String.toList h
      simp only [toList_signatureBase_nil, List.cons.injEq, true_and, List.append_cancel_left_eq]
        at htext
      exact ⟨rfl, String.toList_inj.mp htext⟩
    | cons x rest =>
      obtain ⟨⟨c, hc⟩, -⟩ := hlines' x List.mem_cons_self
      have htext := congrArg String.toList h
      rw [toList_signatureBase_nil, toList_signatureBase_cons, hc] at htext
      have hname := (Text.append_cons_inj (by decide) c.quote_not_mem_text
        (List.cons.inj htext).2).1
      exact absurd (String.toList_inj.mp hname).symm c.text_ne_params
  | cons x rest ih =>
    obtain ⟨⟨c, hc⟩, hx⟩ := hlines x List.mem_cons_self
    have hrest : IsLines rest := fun y hy => hlines y (List.mem_cons_of_mem x hy)
    cases lines' with
    | nil =>
      have htext := congrArg String.toList h
      rw [toList_signatureBase_nil, toList_signatureBase_cons, hc] at htext
      have hname := (Text.append_cons_inj c.quote_not_mem_text (by decide)
        (List.cons.inj htext).2).1
      exact absurd (String.toList_inj.mp hname) c.text_ne_params
    | cons y rest' =>
      obtain ⟨⟨d, hd⟩, hy⟩ := hlines' y List.mem_cons_self
      have hrest' : IsLines rest' := fun z hz => hlines' z (List.mem_cons_of_mem y hz)
      have htext := congrArg String.toList h
      rw [toList_signatureBase_cons, toList_signatureBase_cons] at htext
      obtain ⟨hname, htext⟩ := Text.append_cons_inj (hc ▸ c.quote_not_mem_text)
        (hd ▸ d.quote_not_mem_text) (List.cons.inj htext).2
      simp only [List.cons.injEq, true_and] at htext
      obtain ⟨hvalue, htext⟩ := Text.append_cons_inj hx hy htext
      obtain ⟨rfl, hparams⟩ := ih hrest hrest' (String.toList_inj.mp htext)
      have hxy : x = y := Prod.ext (String.toList_inj.mp hname) (String.toList_inj.mp hvalue)
      exact ⟨by rw [hxy], hparams⟩

theorem mem_trim {value : String} {c : Char} (h : c ∈ (trim value).toList) : c ∈ value.toList := by
  rw [trim, String.toList_ofList, List.mem_reverse] at h
  have hmem := (List.dropWhile_sublist _).mem h
  exact (List.dropWhile_sublist _).mem (List.mem_reverse.mp hmem)

theorem mem_of_mapM_toStr {raws values : List String} (h : raws.mapM toStr = some values)
    {value : String} (hvalue : value ∈ values) : ∃ raw ∈ raws, toStr raw = some value := by
  induction raws generalizing values with
  | nil =>
    cases h
    cases hvalue
  | cons raw raws ih =>
    rw [List.mapM_cons] at h
    obtain ⟨first, hfirst, h⟩ := Option.bind_eq_some_iff.mp h
    obtain ⟨rest, hrest, h⟩ := Option.bind_eq_some_iff.mp h
    cases h
    obtain rfl | hvalue := List.mem_cons.mp hvalue
    · exact ⟨raw, List.mem_cons_self, hfirst⟩
    · obtain ⟨raw', hmem, hraw⟩ := ih hrest hvalue
      exact ⟨raw', List.mem_cons_of_mem raw hmem, hraw⟩

theorem newline_not_mem_toStr {value text : String} (h : toStr value = some text) :
    '\n' ∉ text.toList := by
  unfold toStr at h
  split at h
  · next hall =>
    cases h
    exact fun hmem => absurd (List.all_eq_true.mp hall _ hmem) (by decide)
  · cases h

theorem toLower_of_upper {c : Char} (h : c.val ≥ 'A'.val ∧ c.val ≤ 'Z'.val) :
    c.toLower.val = c.val + 32 :=
  congrArg Char.val (dif_pos h)

theorem toLower_of_not_upper {c : Char} (h : ¬ (c.val ≥ 'A'.val ∧ c.val ≤ 'Z'.val)) :
    c.toLower = c :=
  dif_neg h

theorem eq_newline_of_toLower {c : Char} (h : c.toLower = '\n') : c = '\n' := by
  by_cases hc : c.val ≥ 'A'.val ∧ c.val ≤ 'Z'.val
  · have hval : c.val + 32 = 10 := (toLower_of_upper hc).symm.trans (congrArg Char.val h)
    have hlow : 65 ≤ c.val := hc.1
    have hhigh : c.val ≤ 90 := hc.2
    grind
  · rwa [toLower_of_not_upper hc] at h

theorem newline_not_mem_toAsciiLowercase {text : String} (h : '\n' ∉ text.toList) :
    '\n' ∉ (toAsciiLowercase text).toList := by
  rw [toAsciiLowercase, String.toList_ofList]
  intro hmem
  obtain ⟨c, hc, hlower⟩ := List.mem_map.mp hmem
  exact h (eq_newline_of_toLower hlower ▸ hc)

theorem newline_not_mem_combined {headers : HeaderMap} {name : HeaderName} {field : String}
    (h : combined headers name = .ok field) : '\n' ∉ field.toList := by
  unfold combined at h
  split at h
  · cases h
  · cases h
  next values _ hvalues =>
  cases h
  rw [String.toList_intercalate, List.map_map]
  intro hmem
  obtain hsep | ⟨text, htext, hmem⟩ := Text.mem_intercalate hmem
  · exact absurd hsep (by decide)
  obtain ⟨value, hvalue, rfl⟩ := List.mem_map.mp htext
  obtain ⟨raw, -, hraw⟩ := mem_of_mapM_toStr hvalues hvalue
  exact newline_not_mem_toStr hraw (mem_trim hmem)

theorem newline_not_mem_authority {parts : Parts} {text : String}
    (h : authority parts = some text) : '\n' ∉ text.toList := by
  obtain ⟨raw, hraw, rfl⟩ := Option.map_eq_some_iff.mp h
  refine newline_not_mem_toAsciiLowercase ?_
  rw [Option.or_eq_some_iff] at hraw
  obtain huri | ⟨-, hhost⟩ := hraw
  · exact parts.oneLine raw (by simp [huri])
  · obtain ⟨value, -, hvalue⟩ := Option.bind_eq_some_iff.mp hhost
    exact newline_not_mem_toStr hvalue

theorem digestField_eq_some {headers : HeaderMap} {field : String}
    (h : digestField headers = .ok (some field)) : combined headers .contentDigest = .ok field := by
  unfold digestField at h
  split at h
  · next hcombined =>
    cases h
    exact hcombined
  · cases h
  · cases h

theorem Target.ofRequest_eq_ok {parts : Parts} {target : Target}
    (h : Target.ofRequest parts = .ok target) :
    ∃ host digest, HttpSig.authority parts = some host ∧ digestField parts.headers = .ok digest ∧
      target = .new parts.method host parts.path (parts.query.getD "") digest := by
  unfold Target.ofRequest at h
  obtain ⟨host, hhost, h⟩ := Result.bind_eq_ok h
  obtain ⟨digest, hdigest, h⟩ := Result.bind_eq_ok h
  cases h
  refine ⟨host, digest, ?_, hdigest, rfl⟩
  cases hauthority : HttpSig.authority parts with
  | none => simp [hauthority, ofOption] at hhost
  | some text =>
    rw [hauthority] at hhost
    cases hhost
    rfl

theorem Target.ofRequest_oneLine {parts : Parts} {target : Target}
    (h : Target.ofRequest parts = .ok target) {c : Component} {value : String}
    (hvalue : target.value c = .ok value) : '\n' ∉ value.toList := by
  obtain ⟨host, digest, hhost, hdigest, rfl⟩ := Target.ofRequest_eq_ok h
  cases c with
  | method =>
    cases hvalue
    exact parts.oneLine _ List.mem_cons_self
  | authority =>
    cases hvalue
    exact newline_not_mem_toAsciiLowercase (newline_not_mem_authority hhost)
  | path =>
    cases hvalue
    dsimp only [Target.new, Target.normalPath]
    split
    · decide
    · exact parts.oneLine _ (by simp)
  | query =>
    cases hvalue
    have hquery : '\n' ∉ (parts.query.getD "").toList := by
      cases hq : parts.query with
      | none => decide
      | some query => exact parts.oneLine _ (by simp [hq])
    dsimp only [Target.new]
    rw [String.toList_append]
    exact fun hmem => (List.mem_append.mp hmem).elim (by decide) hquery
  | contentDigest =>
    cases hfield : digest with
    | none => simp [Target.value, Target.new, hfield] at hvalue
    | some field =>
      simp only [Target.value, Target.new, hfield, Except.ok.injEq] at hvalue
      subst hvalue
      exact newline_not_mem_combined (digestField_eq_some (hfield ▸ hdigest))

structure Accepted (codec : FieldCodec) (parts : Parts) (now : Instant) (maxSkew : Int)
    (v : Verifiable) (list : InnerList) (covered : List Component) (params : Params)
    (text : String) (target : Target) : Prop where
  covers : components list = .ok covered
  checked : Params.check list now maxSkew = .ok params
  written : codec.serializeInnerList list = some text
  arrived : Target.ofRequest parts = .ok target
  yields : target.base covered text = .ok v.base
  digest : coveredSha256 codec parts.headers covered = .ok v.contentSha256
  params_eq : params = ⟨v.keyId, v.created, v.nonce⟩

theorem parse_eq_ok {codec : FieldCodec} {parts : Parts} {now : Instant} {maxSkew : Int}
    {v : Verifiable} (h : parse codec parts now maxSkew = .ok v) :
    ∃ list covered params text target,
      Accepted codec parts now maxSkew v list covered params text target := by
  unfold parse at h
  obtain ⟨field, -, h⟩ := Result.bind_eq_ok h
  obtain ⟨⟨label, list⟩, -, h⟩ := Result.bind_eq_ok h
  obtain ⟨field', -, h⟩ := Result.bind_eq_ok h
  obtain ⟨⟨label', signature⟩, -, h⟩ := Result.bind_eq_ok h
  dsimp only at h
  split at h
  · cases h
  split at h
  · cases h
  obtain ⟨covered, hcovered, h⟩ := Result.bind_eq_ok h
  obtain ⟨params, hparams, h⟩ := Result.bind_eq_ok h
  split at h
  · cases h
  obtain ⟨digest, hdigest, h⟩ := Result.bind_eq_ok h
  obtain ⟨target, htarget, h⟩ := Result.bind_eq_ok h
  obtain ⟨text, htext, h⟩ := Result.bind_eq_ok h
  obtain ⟨base, hbase, h⟩ := Result.bind_eq_ok h
  cases h
  refine ⟨list, covered, params, text, target, hcovered, hparams, ?_, htarget, hbase, hdigest, rfl⟩
  unfold serializeInnerList at htext
  split at htext
  · next hwritten =>
    cases htext
    exact hwritten
  · cases htext

theorem Params.check_eq {list : InnerList} {now now' : Instant} {maxSkew maxSkew' : Int}
    {params params' : Params} (h : Params.check list now maxSkew = .ok params)
    (h' : Params.check list now' maxSkew' = .ok params') : params = params' := by
  have hfields : ∀ {now maxSkew} {params : Params}, Params.check list now maxSkew = .ok params →
      (list.params.foldlM RawParams.read {}).bind RawParams.fields = .ok params := by
    intro now maxSkew params h
    unfold Params.check at h
    obtain ⟨raw, hraw, h⟩ := Result.bind_eq_ok h
    obtain ⟨params', hparams, h⟩ := Result.bind_eq_ok h
    dsimp only at h
    split at h
    · cases h
    split at h
    · cases h
    cases h
    rw [hraw]
    exact hparams
  exact Except.ok.inj ((hfields h).symm.trans (hfields h'))

theorem FieldCodec.serializeInnerList_inj (codec : FieldCodec) {l l' : InnerList} {text : String}
    (h : codec.serializeInnerList l = some text) (h' : codec.serializeInnerList l' = some text) :
    l = l' := by
  have hparse := (codec.parse_innerList l text h).symm.trans (codec.parse_innerList l' text h')
  simpa using hparse

theorem Target.base_eq_ok {target : Target} {covered : List Component} {text base : String}
    (h : target.base covered text = .ok base) :
    ∃ lines, (covered.mapM fun c => (target.value c).map fun value => (c.text, value)) = .ok lines ∧
      base = signatureBase text lines := by
  unfold Target.base at h
  obtain ⟨lines, hlines, h⟩ := Result.bind_eq_ok h
  cases h
  exact ⟨lines, hlines, rfl⟩

theorem Target.base_isLines {parts : Parts} {target : Target} {covered : List Component}
    {lines : List (String × String)} (htarget : Target.ofRequest parts = .ok target)
    (h : (covered.mapM fun c => (target.value c).map fun value => (c.text, value)) = .ok lines) :
    IsLines lines := by
  intro x hx
  obtain ⟨c, -, hc⟩ := Result.mem_mapM h hx
  obtain ⟨value, hvalue, rfl⟩ := Result.map_eq_ok hc
  exact ⟨⟨c, rfl⟩, Target.ofRequest_oneLine htarget hvalue⟩

theorem toAsciiLowercase_idem (text : String) :
    toAsciiLowercase (toAsciiLowercase text) = toAsciiLowercase text := by
  have hlower : ∀ c : Char, c.toLower.toLower = c.toLower := by
    intro c
    by_cases hc : c.val ≥ 'A'.val ∧ c.val ≤ 'Z'.val
    · have hlow : 65 ≤ c.val := hc.1
      have hhigh : c.val ≤ 90 := hc.2
      refine toLower_of_not_upper fun hlower => ?_
      have hpast : c.val + 32 ≤ 90 := toLower_of_upper hc ▸ hlower.2
      grind
    · rw [toLower_of_not_upper hc, toLower_of_not_upper hc]
  simp only [toAsciiLowercase, String.toList_ofList, List.map_map, Function.comp_def, hlower]

/-- Two accepted requests of one base have one list, one set of parameters and one value of every
component that is covered. -/
theorem Accepted.agree {codec : FieldCodec} {p p' : Parts} {now now' : Instant}
    {maxSkew maxSkew' : Int} {v v' : Verifiable} {list list' : InnerList}
    {covered covered' : List Component} {params params' : Params} {text text' : String}
    {target target' : Target}
    (h : Accepted codec p now maxSkew v list covered params text target)
    (h' : Accepted codec p' now' maxSkew' v' list' covered' params' text' target')
    (hbase : v.base = v'.base) :
    covered = covered' ∧ params = params' ∧
      ∀ c ∈ covered, target.value c = target'.value c := by
  obtain ⟨lines, hlines, hyields⟩ := Target.base_eq_ok h.yields
  obtain ⟨lines', hlines', hyields'⟩ := Target.base_eq_ok h'.yields
  obtain ⟨rfl, rfl⟩ := signatureBase_inj (Target.base_isLines h.arrived hlines)
    (Target.base_isLines h'.arrived hlines') (hyields ▸ hyields' ▸ hbase)
  obtain rfl := codec.serializeInnerList_inj h.written h'.written
  obtain rfl := Except.ok.inj (h.covers.symm.trans h'.covers)
  refine ⟨rfl, Params.check_eq h.checked h'.checked, fun c hc => ?_⟩
  have hagree := Result.mapM_agree hlines hlines' hc
  obtain ⟨x, -, hx⟩ := Result.mapM_mem hlines hc
  obtain ⟨value, hvalue, rfl⟩ := Result.map_eq_ok hx
  obtain ⟨value', hvalue', heq⟩ := Result.map_eq_ok (hagree.symm.trans hx)
  rw [hvalue, hvalue', (Prod.mk.inj heq).2]

theorem required_covered {list : InnerList} {covered : List Component}
    (h : components list = .ok covered) : ∀ c ∈ Component.required, c ∈ covered := by
  unfold components at h
  obtain ⟨covered', -, h⟩ := Result.bind_eq_ok h
  dsimp only at h
  split at h
  · cases h
  · next hall =>
    cases h
    simpa using hall

theorem parse_base_binds {codec : FieldCodec} {p p' : Parts} {now now' : Instant}
    {maxSkew maxSkew' : Int} {v v' : Verifiable} (h : parse codec p now maxSkew = .ok v)
    (h' : parse codec p' now' maxSkew' = .ok v') (hbase : v.base = v'.base) :
    p.method = p'.method ∧ authority p = authority p' ∧
      Target.normalPath p.path = Target.normalPath p'.path ∧
      p.query.getD "" = p'.query.getD "" ∧ v.contentSha256 = v'.contentSha256 ∧
      v.keyId = v'.keyId ∧ v.created = v'.created ∧ v.nonce = v'.nonce := by
  obtain ⟨list, covered, params, text, target, hp⟩ := parse_eq_ok h
  obtain ⟨list', covered', params', text', target', hp'⟩ := parse_eq_ok h'
  obtain ⟨rfl, hparams, hvalue⟩ := hp.agree hp' hbase
  rw [hp.params_eq, hp'.params_eq, Params.mk.injEq] at hparams
  obtain ⟨host, digest, hhost, hdigest, rfl⟩ := Target.ofRequest_eq_ok hp.arrived
  obtain ⟨host', digest', hhost', hdigest', rfl⟩ := Target.ofRequest_eq_ok hp'.arrived
  have hrequired := fun c hc => hvalue c (required_covered hp.covers c hc)
  have hmethod := Except.ok.inj (hrequired .method (by decide))
  have hauthority := Except.ok.inj (hrequired .authority (by decide))
  have hpath := Except.ok.inj (hrequired .path (by decide))
  have hquery := Except.ok.inj (hrequired .query (by decide))
  refine ⟨hmethod, ?_, hpath, ?_, ?_, hparams⟩
  · obtain ⟨raw, -, rfl⟩ := Option.map_eq_some_iff.mp hhost
    obtain ⟨raw', -, rfl⟩ := Option.map_eq_some_iff.mp hhost'
    dsimp only [Target.new] at hauthority
    rw [toAsciiLowercase_idem, toAsciiLowercase_idem] at hauthority
    rw [hhost, hhost', hauthority]
  · have htext := congrArg String.toList hquery
    dsimp only [Target.new] at htext
    rw [String.toList_append, String.toList_append, List.append_cancel_left_eq] at htext
    exact String.toList_inj.mp htext
  · have hread := hp.digest
    have hread' := hp'.digest
    unfold coveredSha256 at hread hread'
    by_cases hcovers : covered.contains .contentDigest = true
    · rw [if_pos hcovers] at hread hread'
      obtain ⟨sha, hsha, -⟩ := Result.map_eq_ok hread
      obtain ⟨sha', hsha', -⟩ := Result.map_eq_ok hread'
      obtain ⟨field, hfield, -⟩ := Result.bind_eq_ok hsha
      obtain ⟨field', hfield', -⟩ := Result.bind_eq_ok hsha'
      rw [digestField, hfield] at hdigest
      rw [digestField, hfield'] at hdigest'
      cases hdigest
      cases hdigest'
      obtain rfl := Except.ok.inj (hvalue .contentDigest (List.contains_iff_mem.mp hcovers))
      rw [hfield] at hread
      rw [hfield'] at hread'
      exact Except.ok.inj (hread.symm.trans hread')
    · rw [if_neg hcovers] at hread hread'
      exact (Except.ok.inj hread).symm.trans (Except.ok.inj hread')

structure Carries (parts : Parts) (request : Outgoing) (signed : Signed) : Prop where
  method : parts.method = request.method
  authority : authority parts = some (toAsciiLowercase request.authority)
  path : Target.normalPath parts.path =
    Target.normalPath ((splitOnce '?' request.pathAndQuery).getD (request.pathAndQuery, "")).1
  query : parts.query.getD "" =
    ((splitOnce '?' request.pathAndQuery).getD (request.pathAndQuery, "")).2
  signatureInput : parts.headers .signatureInput = [signed.signatureInput]
  signature : parts.headers .signature = [signed.signature]
  contentDigest : parts.headers .contentDigest = signed.contentDigest.toList
  body : declaresBody parts.headers = true → request.body.isSome

theorem not_isWhitespace_of_isVisible {c : Char} (h : isVisible c = true) (hne : c ≠ ' ') :
    isWhitespace c = false := by
  have hnat : c.toNat ≠ 0x20 := fun heq => hne (Char.toNat_inj.mp heq)
  simp only [isVisible, Bool.and_eq_true, decide_eq_true_eq] at h
  simp only [isWhitespace, decide_eq_false_iff_not, List.mem_cons, List.not_mem_nil, or_false]
  omega

theorem dropWhile_isWhitespace {text : List Char} (hvisible : text.all isVisible = true)
    (hhead : text.head? ≠ some ' ') : text.dropWhile isWhitespace = text := by
  cases text with
  | nil => rfl
  | cons c rest =>
    have hc := not_isWhitespace_of_isVisible (List.all_eq_true.mp hvisible c List.mem_cons_self)
      (fun heq => hhead (by rw [heq]; rfl))
    rw [List.dropWhile_cons, hc]
    rfl

theorem trim_eq_of_ends {text : String} (hvisible : text.toList.all isVisible = true)
    (hhead : text.toList.head? ≠ some ' ') (hlast : text.toList.getLast? ≠ some ' ') :
    trim text = text := by
  have hreverse : text.toList.reverse.dropWhile isWhitespace = text.toList.reverse :=
    dropWhile_isWhitespace (by rwa [List.all_reverse]) (by rwa [List.head?_reverse])
  rw [trim, dropWhile_isWhitespace hvisible hhead, hreverse, List.reverse_reverse,
    String.ofList_toList]

theorem combined_of_visible {headers : HeaderMap} {name : HeaderName} {text : String}
    (h : headers name = [text]) (hvisible : text.toList.all isVisible = true)
    (htrim : trim text = text) : combined headers name = .ok text := by
  have hstr : toStr text = some text := by
    refine if_pos (List.all_eq_true.mpr fun c hc => ?_)
    rw [List.all_eq_true.mp hvisible c hc, Bool.true_or]
  have hvalues : [text].mapM toStr = some [text] := by simp [hstr]
  rw [combined, h, hvalues]
  simp [htrim]

theorem single_of_visible {headers : HeaderMap} {name : HeaderName} {text : String}
    (h : headers name = [text]) (hvisible : text.toList.all isVisible = true)
    (htrim : trim text = text) : single headers name = .ok text := by
  rw [single, h]
  exact combined_of_visible h hvisible htrim

theorem component_text (c : Component) (h : c.text.toList.all isVisible = true) :
    component ⟨.string ⟨c.text, h⟩, []⟩ = .ok c := by
  cases c <;> rfl

theorem sfvText_eq_ok {s : String} {item : BareItem} (h : sfvText s = .ok item) :
    ∃ hs : s.toList.all isVisible = true, item = .string ⟨s, hs⟩ := by
  unfold sfvText at h
  split at h
  · next hs =>
    cases h
    exact ⟨hs, rfl⟩
  · cases h

theorem componentsFrom_texts {covered seen : List Component} {items : List Item}
    (h : (covered.mapM fun c => (sfvText c.text).map fun text => (⟨text, []⟩ : Item)) = .ok items)
    (hnodup : covered.Nodup) (hseen : ∀ c ∈ covered, c ∉ seen) :
    componentsFrom seen items = .ok covered := by
  induction covered generalizing seen items with
  | nil =>
    cases h
    rfl
  | cons c covered ih =>
    rw [List.mapM_cons] at h
    obtain ⟨item, hitem, h⟩ := Result.bind_eq_ok h
    obtain ⟨others, hothers, h⟩ := Result.bind_eq_ok h
    cases h
    obtain ⟨bare, hbare, rfl⟩ := Result.map_eq_ok hitem
    obtain ⟨hs, rfl⟩ := sfvText_eq_ok hbare
    obtain ⟨hnew, hnodup⟩ := List.nodup_cons.mp hnodup
    have hunseen : ∀ d ∈ covered, d ∉ c :: seen := by
      intro d hd hmem
      obtain rfl | hmem := List.mem_cons.mp hmem
      · exact hnew hd
      · exact hseen d (List.mem_cons_of_mem c hd) hmem
    have hrest := ih hothers hnodup hunseen
    rw [componentsFrom, component_text c hs]
    simp only [bind, Except.bind, if_neg (hseen c List.mem_cons_self), hrest]
    rfl

theorem components_innerList {covered : List Component} {created : Int} {nonce : Nonce}
    {keyId : UserKeyId} {list : InnerList} (h : innerList covered created nonce keyId = .ok list)
    (hnodup : covered.Nodup) (hrequired : ∀ c ∈ Component.required, c ∈ covered) :
    components list = .ok covered := by
  unfold innerList at h
  obtain ⟨_, -, h⟩ := Result.bind_eq_ok h
  obtain ⟨items, hitems, h⟩ := Result.bind_eq_ok h
  obtain ⟨_, -, h⟩ := Result.bind_eq_ok h
  obtain ⟨_, -, h⟩ := Result.bind_eq_ok h
  obtain ⟨_, -, h⟩ := Result.bind_eq_ok h
  obtain ⟨_, -, h⟩ := Result.bind_eq_ok h
  cases h
  have hall : (Component.required.any fun c => decide (c ∉ covered)) = false := by
    simpa using hrequired
  rw [components, componentsFrom_texts hitems hnodup (by simp)]
  simp only [bind, Except.bind, hall]
  rfl

theorem check_innerList {covered : List Component} {created : Int} {nonce : Nonce}
    {keyId : UserKeyId} {list : InnerList} (h : innerList covered created nonce keyId = .ok list)
    {now : Instant} {maxSkew : Int} (hcreated : fromTimestamp created = some created)
    (hfresh : ((now - created * nanosPerSec : Int).natAbs : Int) ≤ maxSkew) :
    Params.check list now maxSkew = .ok ⟨keyId, created, nonce⟩ := by
  unfold innerList at h
  obtain ⟨createdItem, hcreatedItem, h⟩ := Result.bind_eq_ok h
  obtain ⟨items, hitems, h⟩ := Result.bind_eq_ok h
  obtain ⟨nonceItem, hnonce, h⟩ := Result.bind_eq_ok h
  obtain ⟨keyIdItem, hkeyId, h⟩ := Result.bind_eq_ok h
  obtain ⟨algItem, halg, h⟩ := Result.bind_eq_ok h
  obtain ⟨tagItem, htag, h⟩ := Result.bind_eq_ok h
  cases h
  obtain ⟨_, rfl⟩ := sfvText_eq_ok hnonce
  obtain ⟨_, rfl⟩ := sfvText_eq_ok hkeyId
  obtain ⟨_, rfl⟩ := sfvText_eq_ok halg
  obtain ⟨_, rfl⟩ := sfvText_eq_ok htag
  unfold sfvInteger at hcreatedItem
  split at hcreatedItem
  · next hbounded =>
    cases hcreatedItem
    have hfields : RawParams.fields ⟨some created, none, some nonce.value, some keyId.raw,
        some "ed25519", some "pipette"⟩ = .ok ⟨keyId, created, nonce⟩ := by
      have hnonce : Nonce.tryNew nonce.value = some nonce := dif_pos nonce.checked
      have hkeyId : (PrefixedId.tryNew "user key id" "userkey_" keyId.raw).toOption =
          some keyId := by
        rw [keyId.tryNew_raw]
        rfl
      simp only [RawParams.fields, ofOption, hnonce, hkeyId, Option.bind_some, hcreated, bind,
        Except.bind]
      rfl
    have hskew : ¬ ((now - created * nanosPerSec : Int).natAbs : Int) > maxSkew := not_lt.mpr hfresh
    unfold Params.check
    -- the five parameters are read one by one
    refine Eq.trans (congrArg (· >>= _) (show _ = Except.ok _ from rfl)) ?_
    simp only [bind, Except.bind, hfields, hskew]
    rfl
  · cases hcreatedItem

section Signed

variable {codec : FieldCodec} {crypto : Crypto} {keyId : UserKeyId} {nonce : Nonce} {created : Int}
  {request : Outgoing} {signed : Signed} {parts : Parts}

def coveredBy (request : Outgoing) : List Component :=
  Component.required ++ if request.body.isSome then [.contentDigest] else []

theorem sign_eq_ok (h : sign codec crypto keyId nonce created request = .ok signed) :
    ∃ list text base, innerList (coveredBy request) created nonce keyId = .ok list ∧
      codec.serializeInnerList list = some text ∧
      (Target.outgoing request.method request.authority request.pathAndQuery
        signed.contentDigest).base (coveredBy request) text = .ok base ∧
      outgoingBase codec crypto keyId nonce created request = .ok (text, base) ∧
      signed = ⟨"sig=" ++ text, "sig" ++ "=:" ++ codec.base64 (crypto.sign base) ++ ":",
        request.body.map (contentDigest codec crypto)⟩ := by
  unfold sign at h
  obtain ⟨⟨text, base⟩, hbase, h⟩ := Result.bind_eq_ok h
  cases h
  have hsame := hbase
  unfold outgoingBase at hbase
  simp only [Option.isSome_map] at hbase
  obtain ⟨list, hlist, hbase⟩ := Result.bind_eq_ok hbase
  obtain ⟨text', htext, hbase⟩ := Result.bind_eq_ok hbase
  obtain ⟨base', hbase', hbase⟩ := Result.bind_eq_ok hbase
  cases hbase
  refine ⟨list, text, base, hlist, ?_, hbase', hsame, rfl⟩
  unfold serializeInnerList at htext
  split at htext
  · next hwritten =>
    cases htext
    exact hwritten
  · cases htext

theorem bytesField_visible (codec : FieldCodec) {key : String} (hkey : key ∈ ["sig", "sha-256"]) (bytes : List UInt8) :
    (key ++ "=:" ++ codec.base64 bytes ++ ":").toList.all isVisible = true ∧
      trim (key ++ "=:" ++ codec.base64 bytes ++ ":") =
        key ++ "=:" ++ codec.base64 bytes ++ ":" := by
  have hvisible : key.toList.all isVisible = true ∧ key.toList.head? = some 's' := by
    simp only [List.mem_cons, List.not_mem_nil, or_false] at hkey
    obtain rfl | rfl := hkey <;> exact ⟨rfl, rfl⟩
  have htext : (key ++ "=:" ++ codec.base64 bytes ++ ":").toList =
      key.toList ++ (['=', ':'] ++ (codec.base64 bytes).toList) ++ [':'] := by
    rw [String.toList_append, String.toList_append, String.toList_append, List.append_assoc key.toList]
    rfl
  have hall : (key ++ "=:" ++ codec.base64 bytes ++ ":").toList.all isVisible = true := by
    rw [htext, List.all_append, List.all_append, List.all_append, hvisible.1,
      codec.base64_visible bytes]
    rfl
  refine ⟨hall, trim_eq_of_ends hall ?_ ?_⟩
  · rw [htext, List.append_assoc, List.head?_append, hvisible.2, Option.some_or]
    decide
  · rw [htext, List.getLast?_concat]
    decide

theorem innerListField_visible {list : InnerList} {text : String}
    (h : codec.serializeInnerList list = some text) :
    ("sig=" ++ text).toList.all isVisible = true ∧ trim ("sig=" ++ text) = "sig=" ++ text := by
  obtain ⟨hvisible, hlast⟩ := codec.innerList_visible list text h
  have hall : ("sig=" ++ text).toList.all isVisible = true := by
    rw [String.toList_append, List.all_append, hvisible]
    rfl
  refine ⟨hall, trim_eq_of_ends hall ?_ ?_⟩
  · have hhead : "sig=".toList.head? = some 's' := rfl
    rw [String.toList_append, List.head?_append, hhead, Option.some_or]
    decide
  · rw [String.toList_append, List.getLast?_append]
    cases hend : text.toList.getLast? with
    | none => decide
    | some c =>
      rw [hend] at hlast
      simpa using hlast

theorem combined_carried {body : List UInt8}
    (h : parts.headers .contentDigest = [contentDigest codec crypto body]) :
    combined parts.headers .contentDigest = .ok (contentDigest codec crypto body) := by
  obtain ⟨hvisible, htrim⟩ := bytesField_visible codec (List.mem_cons_of_mem "sig" List.mem_cons_self)
    (crypto.sha256 body)
  exact combined_of_visible h hvisible htrim

theorem digestField_carried
    (h : parts.headers .contentDigest = (request.body.map (contentDigest codec crypto)).toList) :
    digestField parts.headers = .ok (request.body.map (contentDigest codec crypto)) := by
  cases hbody : request.body with
  | none =>
    rw [hbody] at h
    simp only [digestField, combined, h, Option.map_none, Option.toList_none]
    rfl
  | some body =>
    rw [hbody] at h
    rw [digestField, combined_carried h]
    rfl

theorem coveredSha256_carried
    (h : parts.headers .contentDigest = (request.body.map (contentDigest codec crypto)).toList) :
    coveredSha256 codec parts.headers (coveredBy request) =
      .ok (request.body.map crypto.sha256) := by
  cases hbody : request.body with
  | none =>
    rw [coveredBy, hbody]
    rfl
  | some body =>
    rw [hbody] at h
    have hparse : codec.parse (contentDigest codec crypto body) =
        some [("sha-256", .item ⟨.byteSequence (crypto.sha256 body), []⟩)] :=
      codec.parse_bytes "sha-256" (by decide) _
    have hsha : contentSha256 codec (contentDigest codec crypto body) =
        .ok (crypto.sha256 body) := by
      simp only [contentSha256, dictionary, hparse, bind, Except.bind, onlyMember,
        crypto.sha256_length]
      rfl
    have hcovers : (coveredBy request).contains .contentDigest = true := by
      rw [coveredBy, hbody]
      rfl
    rw [coveredSha256, if_pos hcovers, combined_carried h]
    simp only [Except.bind, hsha]
    rfl

theorem ofRequest_carried (h : Carries parts request signed) {digest : Option String}
    (hdigest : digestField parts.headers = .ok digest) :
    Target.ofRequest parts = .ok (Target.outgoing request.method request.authority
      request.pathAndQuery digest) := by
  unfold Target.ofRequest
  rw [h.authority, hdigest]
  simp only [ofOption, bind, Except.bind, pure, Except.pure, Target.outgoing, Target.new, h.method,
    h.path, h.query, toAsciiLowercase_idem]

theorem nodup_coveredBy : (coveredBy request).Nodup ∧
    ∀ c ∈ Component.required, c ∈ coveredBy request := by
  refine ⟨?_, fun c hc => List.mem_append_left _ hc⟩
  unfold coveredBy
  cases request.body.isSome <;> decide

theorem parse_signed (hsign : sign codec crypto keyId nonce created request = .ok signed)
    (h : Carries parts request signed) {now : Instant} {maxSkew : Int}
    (hcreated : fromTimestamp created = some created)
    (hfresh : ((now - created * nanosPerSec : Int).natAbs : Int) ≤ maxSkew) :
    ∃ text v, outgoingBase codec crypto keyId nonce created request = .ok (text, v.base) ∧
      parse codec parts now maxSkew = .ok v := by
  obtain ⟨list, text, base, hlist, htext, hbase, houtgoing, rfl⟩ := sign_eq_ok hsign
  obtain ⟨hvisible, htrim⟩ := innerListField_visible htext
  obtain ⟨hvisible', htrim'⟩ :=
    bytesField_visible codec List.mem_cons_self (crypto.sign base)
  have hinput : signatureInput codec ("sig=" ++ text) = .ok ("sig", list) := by
    simp only [signatureInput, dictionary, codec.parse_innerList list text htext, bind, Except.bind,
      onlyMember]
    rfl
  have hfield : signatureField codec ("sig" ++ "=:" ++ codec.base64 (crypto.sign base) ++ ":") =
      .ok ("sig", crypto.sign base) := by
    simp only [signatureField, dictionary, codec.parse_bytes "sig" (by decide), bind, Except.bind,
      onlyMember]
    rfl
  have hbody : (declaresBody parts.headers && !(coveredBy request).contains .contentDigest) =
      false := by
    cases hdeclares : declaresBody parts.headers with
    | false => rfl
    | true =>
      rw [coveredBy, h.body hdeclares]
      rfl
  have hserialize : serializeInnerList codec list = .ok text := by
    rw [serializeInnerList, htext]
  refine ⟨text, ⟨keyId, created, nonce, crypto.sign base, request.body.map crypto.sha256,
    (Target.outgoing request.method request.authority request.pathAndQuery
      (request.body.map (contentDigest codec crypto))).authority, base⟩, houtgoing, ?_⟩
  unfold parse
  rw [single_of_visible h.signatureInput hvisible htrim,
    single_of_visible h.signature hvisible' htrim', ofRequest_carried h
      (digestField_carried h.contentDigest)]
  simp only [bind, Except.bind, hinput, hfield, crypto.sign_length,
    components_innerList hlist nodup_coveredBy.1 nodup_coveredBy.2,
    check_innerList hlist hcreated hfresh, hbody, coveredSha256_carried h.contentDigest, hserialize,
    hbase]
  rfl

end Signed

/-- The signed text binds the request, an empty path counted as `/`; and a request that carries
what a signer produces parses back to the base that was signed. -/
theorem signature_base_binds (codec : FieldCodec) (crypto : Crypto) :
    (∀ (p p' : Parts) (now now' : Instant) (maxSkew maxSkew' : Int) (v v' : Verifiable),
      parse codec p now maxSkew = .ok v → parse codec p' now' maxSkew' = .ok v' →
      v.base = v'.base →
      p.method = p'.method ∧ authority p = authority p' ∧
        Target.normalPath p.path = Target.normalPath p'.path ∧
        p.query.getD "" = p'.query.getD "" ∧ v.contentSha256 = v'.contentSha256 ∧
        v.keyId = v'.keyId ∧ v.created = v'.created ∧ v.nonce = v'.nonce) ∧
    ∀ (keyId : UserKeyId) (nonce : Nonce) (created : Int) (request : Outgoing) (signed : Signed)
      (parts : Parts) (now : Instant) (maxSkew : Int),
      sign codec crypto keyId nonce created request = .ok signed →
      Carries parts request signed → fromTimestamp created = some created →
      ((now - created * nanosPerSec : Int).natAbs : Int) ≤ maxSkew →
      ∃ text v, outgoingBase codec crypto keyId nonce created request = .ok (text, v.base) ∧
        parse codec parts now maxSkew = .ok v :=
  ⟨fun _ _ _ _ _ _ _ _ h h' hbase => parse_base_binds h h' hbase,
    fun _ _ _ _ _ _ _ _ hsign h hcreated hfresh => parse_signed hsign h hcreated hfresh⟩

def rootKey : UserKeyId := ⟨"userkey_1", rfl⟩

def rootNonce : Nonce := ⟨"n", rfl⟩

def rootList : InnerList :=
  { items := Component.required.map fun c => ⟨.string ⟨c.text, by cases c <;> rfl⟩, []⟩
    params := [("created", .integer ⟨0, by decide⟩), ("nonce", .string ⟨"n", rfl⟩),
      ("keyid", .string ⟨"userkey_1", rfl⟩), ("alg", .string ⟨"ed25519", rfl⟩),
      ("tag", .string ⟨"pipette", rfl⟩)] }

def rootText : String :=
  "(\"@method\" \"@authority\" \"@path\" \"@query\");created=0;nonce=\"n\";" ++
    "keyid=\"userkey_1\";alg=\"ed25519\";tag=\"pipette\""

def bytesField (key : String) (field : String) : Option Dictionary := do
  let rest ← stripPrefix (key ++ "=:") field.toList
  let text ← stripSuffix ":" rest
  pure [(key, .item ⟨.byteSequence (Base64.decode text), []⟩)]

theorem bytesField_append (key : String) (bytes : List UInt8) :
    bytesField key (key ++ "=:" ++ String.ofList (Base64.encode bytes) ++ ":") =
      some [(key, .item ⟨.byteSequence bytes, []⟩)] := by
  have htext : (key ++ "=:" ++ String.ofList (Base64.encode bytes) ++ ":").toList =
      (key ++ "=:").toList ++ (Base64.encode bytes ++ ":".toList) := by
    rw [String.toList_append, String.toList_append, String.toList_ofList, List.append_assoc]
  simp only [bytesField, htext, stripPrefix_append, stripSuffix_append, Option.bind_eq_bind,
    Option.bind_some, Base64.decode_encode]
  rfl

theorem rootText_ne {key text : String} (hkey : key ∈ ["sig", "sha-256"]) :
    key ++ "=:" ++ text ++ ":" ≠ "sig=" ++ rootText := by
  intro h
  have hchar := congrArg String.toList h
  rw [String.toList_append, String.toList_append, List.append_assoc] at hchar
  simp only [List.mem_cons, List.not_mem_nil, or_false] at hkey
  obtain rfl | rfl := hkey
  · have hfirst : (("sig" ++ "=:").toList ++ (text.toList ++ ":".toList))[4]? = some ':' := rfl
    rw [hchar] at hfirst
    exact absurd hfirst (by decide)
  · have hfirst : (("sha-256" ++ "=:").toList ++ (text.toList ++ ":".toList))[1]? = some 'h' := rfl
    rw [hchar] at hfirst
    exact absurd hfirst (by decide)

theorem bytesField_sha256 (text : String) :
    bytesField "sig" ("sha-256" ++ "=:" ++ text ++ ":") = none := by
  have hstart : stripPrefix ("sig" ++ "=:") ("sha-256" ++ "=:" ++ text ++ ":").toList = none := by
    rw [String.toList_append, String.toList_append]
    rfl
  rw [bytesField, hstart]
  rfl

def rootCodec : FieldCodec where
  parse field :=
    if field = "sig=" ++ rootText then some [("sig", .innerList rootList)]
    else (bytesField "sig" field).or (bytesField "sha-256" field)
  serializeInnerList list := if list = rootList then some rootText else none
  base64 bytes := String.ofList (Base64.encode bytes)
  parse_innerList list text h := by
    split at h
    · next hlist =>
      cases h
      rw [if_pos rfl, hlist]
    · cases h
  parse_bytes key hkey bytes := by
    rw [if_neg (rootText_ne hkey)]
    simp only [List.mem_cons, List.not_mem_nil, or_false] at hkey
    obtain rfl | rfl := hkey
    · rw [bytesField_append, Option.some_or]
    · rw [bytesField_sha256, Option.none_or, bytesField_append]
  innerList_visible list text h := by
    split at h
    · cases h
      decide
    · cases h
  base64_visible bytes := by
    have hall : ('=' :: Base64.alphabet).all isVisible = true := by decide +kernel
    rw [String.toList_ofList, List.all_eq_true]
    exact fun c hc => List.all_eq_true.mp hall c (Base64.mem_encode hc)

def rootCrypto : Crypto where
  sha256 _ := List.replicate 32 0
  sha256_length _ := List.length_replicate
  sign _ := List.replicate 64 0
  sign_length _ := List.length_replicate

def rootRequest : Outgoing := ⟨"GET", "mgmt.example", "/", none⟩

def rootSigned : Signed :=
  ⟨"sig=" ++ rootText, "sig" ++ "=:" ++ rootCodec.base64 (List.replicate 64 0) ++ ":", none⟩

theorem sign_root : sign rootCodec rootCrypto rootKey rootNonce 0 rootRequest = .ok rootSigned :=
  rfl

/-- The request for `/`, and the one whose target is an authority alone. -/
def rootParts (bare : Bool) : Parts where
  method := "GET"
  uriAuthority := if bare then some "mgmt.example" else none
  path := if bare then "" else "/"
  query := none
  headers
    | .host => ["mgmt.example"]
    | .signatureInput => [rootSigned.signatureInput]
    | .signature => [rootSigned.signature]
    | .contentDigest | .transferEncoding | .contentLength => []
  oneLine := by cases bare <;> decide

theorem carries_root (bare : Bool) : Carries (rootParts bare) rootRequest rootSigned := by
  cases bare <;>
    exact ⟨rfl, rfl, rfl, rfl, rfl, rfl, rfl, fun hbody => nomatch (show false = true from hbody)⟩

theorem parse_root (bare : Bool) :
    ∃ text v, outgoingBase rootCodec rootCrypto rootKey rootNonce 0 rootRequest =
        .ok (text, v.base) ∧ parse rootCodec (rootParts bare) 0 0 = .ok v :=
  parse_signed sign_root (carries_root bare) rfl (by decide)

/-- A target with no path signs as `/`. -/
theorem empty_path_signs_as_slash :
    ∃ v v', parse rootCodec (rootParts true) 0 0 = .ok v ∧
      parse rootCodec (rootParts false) 0 0 = .ok v' ∧ v.base = v'.base ∧
      (rootParts true).path = "" ∧ (rootParts false).path = "/" := by
  obtain ⟨text, v, hbase, hv⟩ := parse_root true
  obtain ⟨text', v', hbase', hv'⟩ := parse_root false
  refine ⟨v, v', hv, hv', ?_, rfl, rfl⟩
  exact (Prod.mk.inj (Except.ok.inj (hbase.symm.trans hbase'))).2

/-- The two requests agree in what is signed, and one of them parses back to it. -/
theorem signature_base_binds_root :
    (∃ v v', parse rootCodec (rootParts true) 0 0 = .ok v ∧
      parse rootCodec (rootParts false) 0 0 = .ok v' ∧ v.nonce = v'.nonce) ∧
    ∃ text v, outgoingBase rootCodec rootCrypto rootKey rootNonce 0 rootRequest =
        .ok (text, v.base) ∧ parse rootCodec (rootParts false) 0 0 = .ok v := by
  obtain ⟨text, v, hbase, hv⟩ := parse_root true
  obtain ⟨text', v', hbase', hv'⟩ := parse_root false
  have hsame : v.base = v'.base := (Prod.mk.inj (Except.ok.inj (hbase.symm.trans hbase'))).2
  obtain ⟨-, -, -, -, -, -, -, hnonce⟩ :=
    (signature_base_binds rootCodec rootCrypto).1 _ _ 0 0 0 0 v v' hv hv' hsame
  exact ⟨⟨v, v', hv, hv', hnonce⟩, (signature_base_binds rootCodec rootCrypto).2 rootKey rootNonce 0
    rootRequest rootSigned _ 0 0 sign_root (carries_root false) rfl (by decide)⟩

end Pipette.HttpSig
