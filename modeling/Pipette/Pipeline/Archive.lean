import Mathlib.Data.String.Basic
import Pipette.Lib.Assoc
import Pipette.Lib.Result
import Pipette.Lib.Total

/-! The tar that an import packs a model directory into, streamed while the files are downloaded. A
stream is written out as what a consumer that reads it to its end sees. -/
namespace Pipette

def tarBlock : Nat := 512

def tarEnd : List UInt8 := List.replicate 1024 0

structure TarEntry where
  name : String
  repoPath : String
  size : Nat
  sha256 : Option String
deriving DecidableEq, Repr

inductive ArchiveError (ε : Type)
  | transport (e : ε)
  | length (path : String) (expected actual : Nat)
  | digest (path expected actual : String)
  | sha256 (reason : String)
deriving DecidableEq, Repr

structure UnsupportedPathError where
  path : String
deriving DecidableEq, Repr

structure TarHeader where
  build : String → Nat → Except UnsupportedPathError (List UInt8)
  block : ∀ name size bytes, build name size = .ok bytes → bytes.length = tarBlock

def padding (size : Nat) : Nat := (tarBlock - size % tarBlock) % tarBlock

def u64Max : Nat := 2 ^ 64 - 1

def u64Add (a b : Nat) : Nat := min (a + b) u64Max

def archiveSize (entries : List TarEntry) : Nat :=
  (entries.map fun entry => u64Add (u64Add tarBlock entry.size) (padding entry.size)).foldl u64Add
    (2 * tarBlock)

inductive StreamEvent (ε : Type)
  | opened (entry : TarEntry)
  | chunk (bytes : List UInt8)
  | failed (e : ArchiveError ε)
deriving DecidableEq, Repr

section Stream

variable {ε : Type} (hash : List UInt8 → Except String String)

/-- The error at the end of an entry's body, or `none` if the body is what the listing says. -/
def TarEntry.finish (entry : TarEntry) (seen : Nat) (digest : Option (List UInt8)) : Option (ArchiveError ε) :=
  if seen ≠ entry.size then some (.length entry.repoPath entry.size seen)
  else
    match entry.sha256, digest with
    | some expected, some data =>
      match hash data with
      | .ok actual =>
        if actual = expected then none else some (.digest entry.repoPath expected actual)
      | .error reason => some (.sha256 reason)
    | _, _ => none

/-- The body of an entry, chunk by chunk, up to its first failure. The digest is kept as the bytes it
has taken in. -/
def checkedFrom (entry : TarEntry) :
    Nat → Option (List UInt8) → List (Except ε (List UInt8)) → List (StreamEvent ε)
  | seen, digest, [] => ((TarEntry.finish hash entry seen digest).map .failed).toList
  | _, _, .error e :: _ => [.failed (.transport e)]
  | seen, digest, .ok bytes :: rest =>
    let seen := seen + bytes.length
    if seen > entry.size then [.failed (.length entry.repoPath entry.size seen)]
    else .chunk bytes :: checkedFrom entry seen (digest.map (· ++ bytes)) rest

def checked (entry : TarEntry) (body : List (Except ε (List UInt8))) : List (StreamEvent ε) :=
  checkedFrom hash entry 0 (entry.sha256.map fun _ => []) body

variable (download : TarEntry → Except ε (List (Except ε (List UInt8))))

def entryEvents (file : TarEntry × List UInt8) : List (StreamEvent ε) :=
  let body := match download file.1 with
    | .error e => [.failed (.transport e)]
    | .ok body => checked hash file.1 body
  .chunk file.2 :: .opened file.1 :: body ++ [.chunk (List.replicate (padding file.1.size) 0)]

/-- The latch of the stream. It sees an error only as it passes it on, so one more item is drawn from
within, and dropped, before the stream is at its end. -/
def latched : Bool → List (StreamEvent ε) → List (StreamEvent ε)
  | _, [] => []
  | failed, .opened entry :: rest => .opened entry :: latched failed rest
  | false, .chunk bytes :: rest => .chunk bytes :: latched false rest
  | false, .failed e :: rest => .failed e :: latched true rest
  | true, .chunk _ :: _ => []
  | true, .failed _ :: _ => []

def sortByName (entries : List TarEntry) : List TarEntry :=
  (Assoc.sortByKey (entries.map fun entry => (entry.name, entry))).map Prod.snd

/-- The archive of the entries in the order of their names. Every header is built first. -/
def archive (header : TarHeader) (entries : List TarEntry) :
    Except UnsupportedPathError (List (StreamEvent ε)) := do
  let entries := sortByName entries
  let headers ← entries.mapM fun entry => header.build entry.name entry.size
  pure (latched false
    ((entries.zip headers).flatMap (entryEvents hash download) ++ [.chunk tarEnd]))

end Stream

def TarEntry.packedSize (entry : TarEntry) : Nat := tarBlock + entry.size + padding entry.size

def exactSize (entries : List TarEntry) : Nat :=
  Total.total TarEntry.packedSize entries + 2 * tarBlock

theorem archiveSize_eq_min (entries : List TarEntry) :
    archiveSize entries = min (exactSize entries) u64Max := by
  have hfold : ∀ (l : List TarEntry) (a : Nat),
      (l.map fun entry => u64Add (u64Add tarBlock entry.size) (padding entry.size)).foldl u64Add
        (min a u64Max) = min (Total.total TarEntry.packedSize l + a) u64Max := by
    intro l
    induction l with
    | nil => simp
    | cons entry rest ih =>
      intro a
      have hstep : u64Add (min a u64Max) (u64Add (u64Add tarBlock entry.size) (padding entry.size)) =
          min (entry.packedSize + a) u64Max := by
        unfold u64Add TarEntry.packedSize
        omega
      rw [List.map_cons, List.foldl_cons, hstep, ih, Total.total_cons]
      congr 1
      omega
  have hstart : 2 * tarBlock = min (2 * tarBlock) u64Max := by decide
  rw [archiveSize, hstart, hfold, exactSize]

section Stream

variable {ε : Type} {hash : List UInt8 → Except String String}
  {download : TarEntry → Except ε (List (Except ε (List UInt8)))}

structure Delivered (hash : List UInt8 → Except String String)
    (download : TarEntry → Except ε (List (Except ε (List UInt8)))) (entry : TarEntry)
    (chunks : List (List UInt8)) : Prop where
  sent : download entry = .ok (chunks.map .ok)
  length : chunks.flatten.length = entry.size
  digest : ∀ expected, entry.sha256 = some expected → hash chunks.flatten = .ok expected

def StreamEvent.isFailed : StreamEvent ε → Bool
  | .failed _ => true
  | .opened _ | .chunk _ => false

theorem checkedFrom_cases (hash : List UInt8 → Except String String) (entry : TarEntry) (taken : List UInt8)
    (body : List (Except ε (List UInt8))) :
    (∃ chunks : List (List UInt8), body = chunks.map .ok ∧
      checkedFrom hash entry taken.length (entry.sha256.map fun _ => taken) body =
        chunks.map .chunk ∧
      (taken ++ chunks.flatten).length = entry.size ∧
      ∀ expected, entry.sha256 = some expected → hash (taken ++ chunks.flatten) = .ok expected) ∨
    ∃ (chunks : List (List UInt8)) (e : ArchiveError ε),
      checkedFrom hash entry taken.length (entry.sha256.map fun _ => taken) body =
        chunks.map .chunk ++ [.failed e] := by
  induction body generalizing taken with
  | nil =>
    cases hfinish : (TarEntry.finish hash entry taken.length (entry.sha256.map fun _ => taken) :
        Option (ArchiveError ε)) with
    | some e => exact .inr ⟨[], e, by simp [checkedFrom, hfinish]⟩
    | none =>
      refine .inl ⟨[], rfl, by simp [checkedFrom, hfinish], ?_⟩
      unfold TarEntry.finish at hfinish
      split at hfinish
      · cases hfinish
      · next hlen =>
        refine ⟨by simpa using hlen, fun expected hexpected => ?_⟩
        rw [hexpected, Option.map_some] at hfinish
        dsimp only at hfinish
        split at hfinish
        · next actual hhash =>
          split at hfinish
          · next heq => simpa [heq] using hhash
          · cases hfinish
        · cases hfinish
  | cons item rest ih =>
    cases item with
    | error e => exact .inr ⟨[], .transport e, rfl⟩
    | ok bytes =>
      simp only [checkedFrom]
      split
      · exact .inr ⟨[], _, rfl⟩
      · have hdigest : (entry.sha256.map fun _ => taken).map (· ++ bytes) =
            entry.sha256.map fun _ => taken ++ bytes := by simp [Function.comp_def]
        rw [hdigest, ← List.length_append]
        rcases ih (taken ++ bytes) with ⟨chunks, hrest, hevents, hlen, hhash⟩ | ⟨chunks, e, hevents⟩
        · refine .inl ⟨bytes :: chunks, by rw [hrest]; rfl, by rw [hevents]; rfl, ?_, ?_⟩
          · simpa using hlen
          · simpa using hhash
        · exact .inr ⟨bytes :: chunks, e, by rw [hevents]; rfl⟩

theorem entryEvents_cases (hash : List UInt8 → Except String String)
    (download : TarEntry → Except ε (List (Except ε (List UInt8)))) (file : TarEntry × List UInt8) :
    (∃ chunks, Delivered hash download file.1 chunks ∧ entryEvents hash download file =
      .chunk file.2 :: .opened file.1 :: chunks.map .chunk ++
        [.chunk (List.replicate (padding file.1.size) 0)]) ∨
    ∃ before e bytes, (∀ event ∈ before, event.isFailed = false) ∧
      entryEvents hash download file = before ++ [.failed e, .chunk bytes] := by
  cases hdownload : download file.1 with
  | error e =>
    refine .inr ⟨[.chunk file.2, .opened file.1], .transport e,
      List.replicate (padding file.1.size) 0, by simp [StreamEvent.isFailed], ?_⟩
    simp [entryEvents, hdownload]
  | ok body =>
    rcases checkedFrom_cases hash file.1 [] body with
      ⟨chunks, hbody, hevents, hlen, hhash⟩ | ⟨chunks, e, hevents⟩
    · refine .inl ⟨chunks, ⟨hbody ▸ hdownload, by simpa using hlen, by simpa using hhash⟩, ?_⟩
      have hchecked : checked hash file.1 body = chunks.map .chunk := hevents
      simp [entryEvents, hdownload, hchecked]
    · refine .inr ⟨.chunk file.2 :: .opened file.1 :: chunks.map .chunk, e,
        List.replicate (padding file.1.size) 0, by simp [StreamEvent.isFailed], ?_⟩
      have hchecked : checked hash file.1 body = chunks.map .chunk ++ [.failed e] := hevents
      simp [entryEvents, hdownload, hchecked]

theorem latched_append {before rest : List (StreamEvent ε)}
    (h : ∀ event ∈ before, event.isFailed = false) :
    latched false (before ++ rest) = before ++ latched false rest := by
  induction before with
  | nil => rfl
  | cons event before ih =>
    have hrest := ih fun event hevent => h event (List.mem_cons_of_mem _ hevent)
    cases event with
    | opened entry => simp [latched, hrest]
    | chunk bytes => simp [latched, hrest]
    | failed e => simp [StreamEvent.isFailed] at h

theorem after_failed {before before' after : List (StreamEvent ε)} {e e' : ArchiveError ε}
    (hbefore : ∀ event ∈ before, event.isFailed = false)
    (h : before ++ [.failed e] = before' ++ .failed e' :: after) : after = [] := by
  induction before generalizing before' with
  | nil =>
    cases before' with
    | nil => exact (by simpa using h.symm : e' = e ∧ after = []).2
    | cons event rest => simp at h
  | cons event rest ih =>
    cases before' with
    | nil =>
      cases (List.cons.inj h).1
      simp [StreamEvent.isFailed] at hbefore
    | cons event' rest' =>
      exact ih (fun event hevent => hbefore event (List.mem_cons_of_mem _ hevent))
        (List.cons.inj h).2

def streamBytes (events : List (StreamEvent ε)) : List UInt8 :=
  events.flatMap fun
    | .chunk bytes => bytes
    | .opened _ | .failed _ => []

theorem streamBytes_append (events events' : List (StreamEvent ε)) :
    streamBytes (events ++ events') = streamBytes events ++ streamBytes events' :=
  List.flatMap_append

theorem streamBytes_chunks (chunks : List (List UInt8)) :
    streamBytes (chunks.map .chunk : List (StreamEvent ε)) = chunks.flatten := by
  induction chunks with
  | nil => rfl
  | cons bytes rest ih => rw [List.map_cons, List.flatten_cons, ← ih]; rfl

def downloaded (download : TarEntry → Except ε (List (Except ε (List UInt8)))) (entry : TarEntry) :
    List UInt8 :=
  match download entry with
  | .ok body => (body.filterMap Except.toOption).flatten
  | .error _ => []

theorem Delivered.downloaded_eq {entry : TarEntry} {chunks : List (List UInt8)}
    (h : Delivered hash download entry chunks) : downloaded download entry = chunks.flatten := by
  simp [downloaded, h.sent, List.filterMap_map, Function.comp_def, Except.toOption]

def packedFile (download : TarEntry → Except ε (List (Except ε (List UInt8))))
    (file : TarEntry × List UInt8) : List UInt8 :=
  file.2 ++ downloaded download file.1 ++ List.replicate (padding file.1.size) 0

theorem latched_files (hash : List UInt8 → Except String String)
    (download : TarEntry → Except ε (List (Except ε (List UInt8))))
    (files : List (TarEntry × List UInt8)) :
    ((∀ file ∈ files, ∃ chunks, Delivered hash download file.1 chunks) ∧
      (∀ event ∈ latched false (files.flatMap (entryEvents hash download) ++ [.chunk tarEnd]),
        event.isFailed = false) ∧
      streamBytes (latched false (files.flatMap (entryEvents hash download) ++ [.chunk tarEnd])) =
        files.flatMap (packedFile download) ++ tarEnd) ∨
    ∃ before e, (∀ event ∈ before, event.isFailed = false) ∧
      latched false (files.flatMap (entryEvents hash download) ++ [.chunk tarEnd]) =
        before ++ [.failed e] := by
  induction files with
  | nil => exact .inl ⟨by simp, by simp [latched, StreamEvent.isFailed], by simp [latched, streamBytes]⟩
  | cons file rest ih =>
    rw [List.flatMap_cons, List.append_assoc]
    rcases entryEvents_cases hash download file with ⟨chunks, hdelivered, hevents⟩ |
      ⟨before, e, bytes, hbefore, hevents⟩
    · have hgood : ∀ event ∈ entryEvents hash download file, event.isFailed = false := by
        rw [hevents]
        grind [StreamEvent.isFailed]
      have hbytes : streamBytes (entryEvents hash download file) = packedFile download file := by
        rw [hevents, packedFile, hdelivered.downloaded_eq, streamBytes_append,
          ← streamBytes_chunks (ε := ε)]
        simp [streamBytes]
      rw [latched_append hgood]
      rcases ih with ⟨hall, hrest, hsame⟩ | ⟨before, e, hbefore, hend⟩
      · refine .inl ⟨?_, ?_, ?_⟩
        · rintro file' (_ | ⟨_, hfile'⟩)
          · exact ⟨chunks, hdelivered⟩
          · exact hall file' hfile'
        · intro event hevent
          exact (List.mem_append.mp hevent).elim (hgood event) (hrest event)
        · rw [streamBytes_append, hbytes, hsame, List.flatMap_cons, List.append_assoc]
      · refine .inr ⟨entryEvents hash download file ++ before, e, ?_, by rw [hend, List.append_assoc]⟩
        intro event hevent
        exact (List.mem_append.mp hevent).elim (hgood event) (hbefore event)
    · refine .inr ⟨before, e, hbefore, ?_⟩
      rw [hevents, List.append_assoc, latched_append hbefore]
      rfl

theorem length_files (header : TarHeader) {entries : List TarEntry} {headers : List (List UInt8)}
    (hheaders : entries.mapM (fun entry => header.build entry.name entry.size) = .ok headers)
    (hdelivered : ∀ entry ∈ entries, (downloaded download entry).length = entry.size) :
    ((entries.zip headers).flatMap (packedFile download)).length =
      Total.total TarEntry.packedSize entries := by
  have hforall := Result.forall₂_of_mapM hheaders
  clear hheaders
  induction hforall with
  | nil => rfl
  | @cons entry bytes entries headers hbuild _ ih =>
    have hrest := ih fun entry hentry => hdelivered entry (List.mem_cons_of_mem _ hentry)
    have hentry := hdelivered entry List.mem_cons_self
    have hblock := header.block _ _ _ hbuild
    rw [List.zip_cons_cons, List.flatMap_cons, List.length_append, hrest, Total.total_cons]
    simp [packedFile, TarEntry.packedSize, hentry, hblock, Nat.add_assoc]

end Stream

theorem sortByName_perm (entries : List TarEntry) : (sortByName entries).Perm entries := by
  have h := (Assoc.sortByKey_perm (entries.map fun entry => (entry.name, entry))).map Prod.snd
  simpa [sortByName, Function.comp_def] using h

theorem sortByName_eq_of_perm {entries entries' : List TarEntry} (h : entries'.Perm entries)
    (hdistinct : (entries.map (·.name)).Nodup) : sortByName entries' = sortByName entries := by
  have hkeys : Assoc.Distinct (entries.map fun entry => (entry.name, entry)) := by
    simpa [Assoc.Distinct, Function.comp_def] using hdistinct
  rw [sortByName, sortByName, Assoc.sortByKey_eq_of_perm hkeys (h.symm.map _)]

/-- A stream that ends without an error is the files in the order of their names, each as listed, and
of the size foretold; the order of the listing is lost, and nothing comes after an error. -/
theorem archive_exact {ε : Type} (hash : List UInt8 → Except String String)
    (download : TarEntry → Except ε (List (Except ε (List UInt8)))) (header : TarHeader)
    (entries : List TarEntry) (hdistinct : (entries.map (·.name)).Nodup) :
    (∀ events, archive hash download header entries = .ok events →
      (∀ before e after, events = before ++ .failed e :: after → after = []) ∧
      ((∀ event ∈ events, event.isFailed = false) →
        (exactSize entries ≤ u64Max → (streamBytes events).length = archiveSize entries) ∧
        (∀ entry ∈ entries, (downloaded download entry).length = entry.size ∧
          ∀ expected, entry.sha256 = some expected → hash (downloaded download entry) = .ok expected) ∧
        ∃ headers, (sortByName entries).mapM (fun entry => header.build entry.name entry.size) =
            .ok headers ∧
          streamBytes events =
            ((sortByName entries).zip headers).flatMap (packedFile download) ++ tarEnd)) ∧
    ∀ entries', entries'.Perm entries →
      archive hash download header entries' = archive hash download header entries := by
  refine ⟨fun events hevents => ?_, fun entries' hperm => ?_⟩
  · obtain ⟨headers, hheaders, hevents⟩ := Result.bind_eq_ok hevents
    cases hevents
    rcases latched_files hash download ((sortByName entries).zip headers) with
      ⟨hall, hgood, hbytes⟩ | ⟨before, e, hbefore, hend⟩
    · refine ⟨fun before e after h => ?_, fun _ => ?_⟩
      · have := hgood (.failed e) (by rw [h]; simp)
        cases this
      · have hmem : ∀ entry ∈ entries, ∃ chunks, Delivered hash download entry chunks := by
          intro entry hentry
          have hlen := (Result.forall₂_of_mapM hheaders).length_eq
          rw [← (sortByName_perm entries).mem_iff, ← List.map_fst_zip hlen.le] at hentry
          obtain ⟨file, hfile, rfl⟩ := List.mem_map.mp hentry
          exact hall file hfile
        have hlisted : ∀ entry ∈ entries, (downloaded download entry).length = entry.size ∧
            ∀ expected, entry.sha256 = some expected →
              hash (downloaded download entry) = .ok expected := by
          intro entry hentry
          obtain ⟨chunks, hdelivered⟩ := hmem entry hentry
          rw [hdelivered.downloaded_eq]
          exact ⟨hdelivered.length, hdelivered.digest⟩
        refine ⟨fun hfits => ?_, hlisted, headers, hheaders, hbytes⟩
        have hsorted : ∀ entry ∈ sortByName entries,
            (downloaded download entry).length = entry.size :=
          fun entry hentry => (hlisted entry ((sortByName_perm entries).mem_iff.mp hentry)).1
        rw [hbytes, List.length_append, length_files header hheaders hsorted, archiveSize_eq_min,
          Nat.min_eq_left hfits, Total.total_perm (sortByName_perm entries), tarEnd,
          List.length_replicate, exactSize, tarBlock]
    · rw [hend]
      refine ⟨fun before' e' after h => ?_, fun hgood => ?_⟩
      · exact after_failed hbefore h
      · have := hgood (.failed e) (by simp)
        cases this
  · simp only [archive]
    rw [sortByName_eq_of_perm hperm hdistinct]

def octalField (width n : Nat) : List UInt8 :=
  (List.range (width - 1)).reverse.map (fun i => UInt8.ofNat (48 + n / 8 ^ i % 8)) ++ [0]

def ustarFields (path : List UInt8) (size : Nat) (cksum : List UInt8) : List UInt8 :=
  path ++ List.replicate (100 - path.length) 0 ++ octalField 8 0o644 ++ octalField 8 0 ++
    octalField 8 0 ++ octalField 12 size ++ octalField 12 0 ++ cksum ++ [48] ++
    List.replicate 100 0 ++ [117, 115, 116, 97, 114, 0, 48, 48] ++ List.replicate 247 0

/-- The ustar header of a path of at most 100 bytes, none of them outside ASCII. -/
def ustarHeader : TarHeader where
  build name size :=
    let path := name.toList.map fun c => UInt8.ofNat c.toNat
    if path.length ≤ 100 then
      let cksum := (ustarFields path size (List.replicate 8 32)).foldl (fun sum b => sum + b.toNat) 0
      .ok (ustarFields path size (octalField 8 cksum))
    else .error ⟨name⟩
  block name size bytes h := by
    dsimp only at h
    split at h
    · next hpath =>
      cases h
      simp only [ustarFields, octalField, List.length_append, List.length_replicate, List.length_map,
        List.length_reverse, List.length_range, List.length_cons, List.length_nil, tarBlock] at hpath ⊢
      omega
    · cases h

/-- SHA-256 of `{}` and of `a b c`. -/
def shortFileHash : List UInt8 → Except String String
  | [123, 125] => .ok "44136fa355b3678a1146ad16f7e8649e94fb4fc21fe77e8310c060f61caaff8a"
  | [97, 32, 98, 32, 99] => .ok "0e9f64031fcb2bc708b531c2a20441580425d151a38503f38592a7dd36019d3b"
  | _ => .error "not a short file"

def shortFiles : List TarEntry :=
  [⟨"tokenizer/vocab.txt", "4bit/tokenizer/vocab.txt", 5,
      some "0e9f64031fcb2bc708b531c2a20441580425d151a38503f38592a7dd36019d3b"⟩,
    ⟨"config.json", "4bit/config.json", 2,
      some "44136fa355b3678a1146ad16f7e8649e94fb4fc21fe77e8310c060f61caaff8a"⟩]

/-- The vocabulary comes in two chunks, of which the second may fail. -/
def sendShortFiles (second : Except Unit (List UInt8)) (entry : TarEntry) :
    Except Unit (List (Except Unit (List UInt8))) :=
  if entry.name = "config.json" then .ok [.ok [123, 125]] else .ok [.ok [97, 32], second]

def archiveOfShort (second : Except Unit (List UInt8)) :
    Except UnsupportedPathError (List (StreamEvent Unit)) :=
  archive shortFileHash (sendShortFiles second) ustarHeader shortFiles

/-- Two files that are listed out of order, with their real headers and digests; and a download that
breaks off in the second of them. -/
theorem archive_exact_two_files :
    (shortFiles.map (·.name)).Nodup ∧
      (∃ events, archiveOfShort (.ok [98, 32, 99]) = .ok events ∧
        (∀ event ∈ events, event.isFailed = false) ∧
        (streamBytes events).length = archiveSize shortFiles ∧
        archive shortFileHash (sendShortFiles (.ok [98, 32, 99])) ustarHeader shortFiles.reverse =
          .ok events) ∧
      ∃ events, archiveOfShort (.error ()) = .ok events ∧ events.any (·.isFailed) = true ∧
        ∀ before e after, events = before ++ .failed e :: after → after = [] := by
  have hdistinct : (shortFiles.map (·.name)).Nodup := by decide
  have hwhole := archive_exact shortFileHash (sendShortFiles (.ok [98, 32, 99])) ustarHeader shortFiles
    hdistinct
  have hbroken := archive_exact shortFileHash (sendShortFiles (.error ())) ustarHeader shortFiles hdistinct
  obtain ⟨events, hevents⟩ : ∃ events, archiveOfShort (.ok [98, 32, 99]) = .ok events :=
    Result.exists_of_isOk (by decide +kernel)
  obtain ⟨cut, hcut⟩ : ∃ events, archiveOfShort (.error ()) = .ok events :=
    Result.exists_of_isOk (by decide +kernel)
  have hgood : ∀ event ∈ events, event.isFailed = false := by
    have hall : (archiveOfShort (.ok [98, 32, 99])).toOption.any (·.all (!·.isFailed)) = true := by
      decide +kernel
    simpa [hevents, Except.toOption] using hall
  have hfailed : cut.any (·.isFailed) = true := by
    have hany : (archiveOfShort (.error ())).toOption.any (·.any (·.isFailed)) = true := by
      decide +kernel
    simpa [hcut, Except.toOption] using hany
  exact ⟨hdistinct,
    ⟨events, hevents, hgood, ((hwhole.1 events hevents).2 hgood).1 (by decide),
      (hwhole.2 _ (List.reverse_perm _)).trans hevents⟩,
    cut, hcut, hfailed, (hbroken.1 cut hcut).1⟩

end Pipette
