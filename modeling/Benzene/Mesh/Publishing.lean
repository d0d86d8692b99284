import Benzene.Data.Encodable
import Benzene.Mesh.Buildable

namespace Benzene.Mesh

open Benzene.Data Benzene.Results

section Writers

-- The documents at the root of the output.
def rootDocuments (artifacts : Artifacts) : List (Str × Fields) :=
  [("manifest.json", artifacts.manifest), ("topology.json", artifacts.topology),
    ("topics.json", artifacts.topics), ("usage.json", artifacts.usage),
    ("asyncapi.json", artifacts.asyncapi), ("annotations.json", artifacts.annotations)]

def serviceFile (name : Str) : Str := name ++ (".json" : Str)

def separator : CodePoint := CodePoint.ofChar '/'

-- Where a file is: the names on the way from the root of the file system.
abbrev Location := List Str

-- A path that is not resolved yet, from where it starts.
structure Path where
  start : Location
  segments : List Str

def Path.ofLocation (location : Location) : Path := ⟨location, []⟩

-- `path / text`. Blank and `.` segments are dropped, `..` is kept. An absolute
-- text starts over.
def Path.join (path : Path) (text : Str) : Path :=
  let parts := (text.splitOn separator).filter fun segment => segment ≠ [] ∧ segment ≠ ("." : Str)
  if text.head? = some separator then ⟨[], parts⟩ else ⟨path.start, path.segments ++ parts⟩

def enter (location : Location) (segment : Str) : Location :=
  if segment = ".." then location.dropLast else location ++ [segment]

-- The files that were written, each with its document, and the directories.
structure FileSystem where
  documents : Dict Location Fields
  directories : Finset Location

-- The output directory and what it is in are there. What they held before is
-- not part of the state.
def FileSystem.fresh (directory : Location) : FileSystem := ⟨Dict.empty, directory.inits.toFinset⟩

-- `mkdir(parents=True, exist_ok=True)`, up to where the segments lead. No file
-- stands where a directory is needed.
def makeDirectories (location : Location) : List Str → Py CollectorError FileSystem Location
  | [] => return location
  | segment :: rest => do
      let files ← Py.get
      if (files.documents.get? (enter location segment)).isSome then Py.throw (.raised ⟨.exception "OSError", []⟩)
      else do
        Py.modify fun files => { files with directories := insert (enter location segment) files.directories }
        makeDirectories (enter location segment) rest

-- The document is written to a temporary file, that then takes the place of
-- the target. A NUL is refused in a path, and UTF-8 has to carry the text.
def writeJson (path : Path) (document : Fields) : Py CollectorError FileSystem Unit := do
  if ∃ segment ∈ path.segments.dropLast, (0 : CodePoint) ∈ segment then Py.throw (.raised ⟨.valueError, []⟩)
  else do
    let parent ← makeDirectories path.start path.segments.dropLast
    let name := path.segments.getLast?.getD []
    let files ← Py.get
    if (0 : CodePoint) ∈ name then Py.throw (.raised ⟨.valueError, []⟩)
    else if (Json.obj document).encodable = false then Py.throw (.raised ⟨.unicodeEncodeError, []⟩)
    else if enter parent name ∈ files.directories then Py.throw (.raised ⟨.exception "OSError", []⟩)
    else Py.modify fun files => { files with documents := files.documents.set (enter parent name) document }

-- An S3 store under a key prefix. Its slashes at both ends are stripped.
structure S3ArtifactStore where
  keyPrefix : Str

def strip (text : Str) : Str :=
  ((text.dropWhile fun c => c = separator).reverse.dropWhile fun c => c = separator).reverse

namespace S3ArtifactStore

-- `S3ArtifactStore(bucket, prefix)`.
def withPrefix (keyPrefix : Str) : S3ArtifactStore := ⟨strip keyPrefix⟩

def key (store : S3ArtifactStore) (key : Str) : Str :=
  let key := key.dropWhile fun c => c = separator
  if store.keyPrefix = [] then key else store.keyPrefix ++ ("/" : Str) ++ key

-- One `PutObject`, of text that UTF-8 can carry.
def write (store : S3ArtifactStore) (key : Str) (document : Fields) : Py CollectorError (Dict Str Fields) Unit :=
  if (Json.obj document).encodable = false then Py.throw (.raised ⟨.unicodeEncodeError, []⟩)
  else Py.modify fun objects => objects.set (store.key key) document

end S3ArtifactStore

variable [UnicodeData] [Calendar] [TrueDivision]

def writeArtifacts (directory : Location) (c : Catalog) (sources : List ServiceEndpoint) (generatedAt : Str) :
    Py CollectorError FileSystem Artifacts := do
  let artifacts ← Py.lift (buildArtifacts c sources generatedAt)
  let root := Path.ofLocation directory
  let _ ← Py.mapEach (fun entry => writeJson (root.join entry.1) entry.2) (rootDocuments artifacts)
  let servicesDir := root.join "services"
  let _ ← Py.mapEach (fun entry => writeJson (servicesDir.join (serviceFile entry.1)) entry.2)
    artifacts.services.entries
  return artifacts

def writeArtifactsToS3 (store : S3ArtifactStore) (c : Catalog) (sources : List ServiceEndpoint) (generatedAt : Str) :
    Py CollectorError (Dict Str Fields) Artifacts := do
  let artifacts ← Py.lift (buildArtifacts c sources generatedAt)
  let _ ← Py.mapEach (fun entry => store.write entry.1 entry.2) (rootDocuments artifacts)
  let _ ← Py.mapEach (fun entry => store.write (("services/" : Str) ++ serviceFile entry.1) entry.2)
    artifacts.services.entries
  return artifacts

end Writers

section Places

-- A pass that writes every root document under its name and every service's
-- document at a place of its own that is `direct`. The places are the keys of a
-- dictionary, so they are all distinct.
def PublishesAt {κ : Type} [DecidableEq κ] (rootAt : Str → κ) (direct : κ → Prop) (names : List Str)
    (pass : Except CollectorError Artifacts × Dict κ Fields) : Prop :=
  ∃ artifacts, pass.1 = .ok artifacts ∧ artifacts.services.keys = names ∧ ∃ place : Str → κ,
    pass.2.entries = (rootDocuments artifacts).map (fun entry => (rootAt entry.1, entry.2)) ++
      artifacts.services.entries.map (fun entry => (place entry.1, entry.2)) ∧
    ∀ name ∈ names, direct (place name)

-- A file directly under `services` of the directory.
def DirectFile (directory location : Location) : Prop :=
  ∃ file, location = directory ++ [("services" : Str), file]

def S3ArtifactStore.root (store : S3ArtifactStore) : Str :=
  if store.keyPrefix = [] then [] else store.keyPrefix ++ ("/" : Str)

-- A key directly under `services/` of the prefix.
def DirectKey (store : S3ArtifactStore) (key : Str) : Prop :=
  ∃ file, separator ∉ file ∧ key = store.root ++ ("services/" : Str) ++ file

variable [UnicodeData] [Calendar] [TrueDivision]

-- The files a pass over a fresh directory leaves.
def filesOf (directory : Location) (c : Catalog) (sources : List ServiceEndpoint) (generatedAt : Str) :
    Except CollectorError Artifacts × Dict Location Fields :=
  Prod.map id FileSystem.documents (writeArtifacts directory c sources generatedAt (FileSystem.fresh directory))

-- The objects a pass over an empty bucket leaves.
def objectsOf (store : S3ArtifactStore) (c : Catalog) (sources : List ServiceEndpoint) (generatedAt : Str) :
    Except CollectorError Artifacts × Dict Str Fields :=
  writeArtifactsToS3 store c sources generatedAt Dict.empty

end Places

section Loops

variable {κ α β ε σ : Type}

-- A loop that returns has run every round.
theorem round_of_mapEach {write : α → Py ε σ Unit} {items : List α} {units : List Unit} {files written : σ}
    (h : Py.mapEach write items files = (.ok units, written)) {item : α} (hitem : item ∈ items) :
    ∃ before after, write item before = (.ok (), after) := by
  induction items generalizing files units written with
  | nil => cases hitem
  | cons first rest ih =>
      obtain ⟨done, after, hround, hmore⟩ := Py.exists_of_bind_ok h
      obtain ⟨more, last, hrest, -⟩ := Py.exists_of_bind_ok hmore
      rcases List.mem_cons.mp hitem with rfl | hlater
      · exact ⟨files, after, hround⟩
      · exact ih hrest hlater

variable [DecidableEq κ]

-- A loop of writes, where each round finds what the rounds before it leave.
theorem mapEach_writes (view : σ → Dict κ β) {write : α → Py ε σ Unit} (entryOf : α → κ × β) {Inv : σ → Prop}
    {items : List α} (hwrite : ∀ item ∈ items, ∀ files, Inv files → ∃ after,
      write item files = (.ok (), after) ∧ Inv after ∧
        view after = (view files).set (entryOf item).1 (entryOf item).2) {files : σ} (hfiles : Inv files) :
    ∃ units written, Py.mapEach write items files = (.ok units, written) ∧ Inv written ∧
      (view written).entries = Entries.update (view files).entries (items.map entryOf) := by
  induction items generalizing files with
  | nil => exact ⟨[], files, rfl, hfiles, rfl⟩
  | cons item rest ih =>
      obtain ⟨after, hround, hkept, hview⟩ := hwrite item List.mem_cons_self files hfiles
      obtain ⟨units, written, hrest, hinv, hentries⟩ :=
        ih (fun other hother => hwrite other (List.mem_cons_of_mem _ hother)) hkept
      refine ⟨() :: units, written, ?_, hinv, ?_⟩
      · rw [Py.mapEach_cons, hround]
        simp only [hrest]
      · rw [hentries, hview]
        rfl

end Loops

section FileNames

theorem Path.join_plain (path : Path) {text : Str} (hsep : separator ∉ text) (hlength : 2 < text.length) :
    path.join text = ⟨path.start, path.segments ++ [text]⟩ := by
  have hhead : text.head? ≠ some separator := by
    intro h
    exact hsep (List.mem_of_mem_head? h)
  have hsplit : text.splitOn separator = [text] := List.splitOn_eq_singleton hsep
  have hkept : text ≠ [] ∧ text ≠ ("." : Str) := by
    constructor
    · rintro rfl
      exact absurd hlength (by decide)
    · rintro rfl
      exact absurd hlength (by decide)
  simp only [Path.join, hhead, if_false, hsplit, List.filter_singleton, hkept, decide_true, cond_true, ne_eq,
    not_false_eq_true, and_self]

theorem enter_plain (location : Location) {segment : Str} (hlength : 2 < segment.length) :
    enter location segment = location ++ [segment] := by
  apply if_neg
  rintro rfl
  exact absurd hlength (by decide)

theorem serviceFile_injective : Function.Injective serviceFile := by
  intro first second h
  exact List.append_cancel_right h

theorem separator_serviceFile {name : Str} : separator ∈ serviceFile name ↔ separator ∈ name := by
  have hsuffix : separator ∉ (".json" : Str) := by decide
  simp [serviceFile, hsuffix]

theorem nul_serviceFile {name : Str} : (0 : CodePoint) ∈ serviceFile name ↔ (0 : CodePoint) ∈ name := by
  have hsuffix : (0 : CodePoint) ∉ (".json" : Str) := by decide
  simp [serviceFile, hsuffix]

theorem length_serviceFile (name : Str) : 2 < (serviceFile name).length := by
  have hsuffix : (".json" : Str).length = 5 := by decide
  rw [serviceFile, List.length_append, hsuffix]
  omega

def rootNames : List Str :=
  ["manifest.json", "topology.json", "topics.json", "usage.json", "asyncapi.json", "annotations.json"]

theorem keys_rootDocuments (artifacts : Artifacts) :
    (rootDocuments artifacts).map Prod.fst = rootNames := rfl

theorem rootNames_nodup : rootNames.Nodup := by decide +kernel

theorem rootNames_plain : ∀ name ∈ rootNames,
    separator ∉ name ∧ (0 : CodePoint) ∉ name ∧ 2 < name.length ∧ name ≠ ("services" : Str) := by
  decide +kernel

end FileNames

section Passes

-- Documents whose texts UTF-8 can carry.
def EncodableDocuments (artifacts : Artifacts) : Prop :=
  ∀ entry ∈ rootDocuments artifacts ++ artifacts.services.entries, (Json.obj entry.2).encodable = true

-- The places of a pass, the root documents before the services' documents.
def places {κ : Type} (rootAt place : Str → κ) (artifacts : Artifacts) : List (κ × Fields) :=
  (rootDocuments artifacts).map (fun entry => (rootAt entry.1, entry.2)) ++
    artifacts.services.entries.map fun entry => (place entry.1, entry.2)

theorem nodup_places {κ : Type} {rootAt place : Str → κ} (hroot : Function.Injective rootAt)
    (hplace : Function.Injective place) (hapart : ∀ name ∈ rootNames, ∀ other, rootAt name ≠ place other)
    (artifacts : Artifacts) : (Entries.keys (places rootAt place artifacts)).Nodup := by
  have hkeys : Entries.keys (places rootAt place artifacts) =
      rootNames.map rootAt ++ artifacts.services.keys.map place := by
    simp only [places, Entries.keys, List.map_append, List.map_map, Dict.keys, ← keys_rootDocuments artifacts]
    rfl
  rw [hkeys, List.nodup_append]
  refine ⟨rootNames_nodup.map hroot, artifacts.services.nodup.map hplace, ?_⟩
  intro first hfirst second hsecond heq
  obtain ⟨name, hname, rfl⟩ := List.mem_map.mp hfirst
  obtain ⟨other, -, rfl⟩ := List.mem_map.mp hsecond
  exact hapart name hname other heq

variable {κ : Type} [DecidableEq κ]

theorem update_places {rootAt place : Str → κ} {artifacts : Artifacts}
    (h : (Entries.keys (places rootAt place artifacts)).Nodup) :
    Entries.update (Entries.update [] ((rootDocuments artifacts).map fun entry => (rootAt entry.1, entry.2)))
        (artifacts.services.entries.map fun entry => (place entry.1, entry.2)) =
      places rootAt place artifacts := by
  have hfirst : (Entries.keys ((rootDocuments artifacts).map fun entry => (rootAt entry.1, entry.2))).Nodup := by
    rw [places, Entries.keys, List.map_append] at h
    exact (List.nodup_append.mp h).1
  rw [Entries.update_nil_of_nodup hfirst, Entries.update_eq_append h]
  rfl

-- A pass whose writes find what they need writes every document at its place.
theorem pass_ok {σ : Type} (view : σ → Dict κ Fields) (rootAt place : Str → κ)
    (writeRoot writeService : Str × Fields → Py CollectorError σ Unit) {artifacts : Artifacts} (Inv : σ → Prop)
    {fresh : σ} (hfresh : Inv fresh) (hempty : view fresh = Dict.empty)
    (hroot : ∀ entry ∈ rootDocuments artifacts, ∀ files, Inv files → ∃ after, writeRoot entry files = (.ok (), after) ∧
      Inv after ∧ view after = (view files).set (rootAt entry.1) entry.2)
    (hservice : ∀ entry ∈ artifacts.services.entries, ∀ files, Inv files → ∃ after,
      writeService entry files = (.ok (), after) ∧ Inv after ∧
        view after = (view files).set (place entry.1) entry.2)
    (hnodup : (Entries.keys (places rootAt place artifacts)).Nodup) :
    ∃ written, (do
        let _ ← Py.mapEach writeRoot (rootDocuments artifacts)
        let _ ← Py.mapEach writeService artifacts.services.entries
        return artifacts : Py CollectorError σ Artifacts) fresh = (.ok artifacts, written) ∧
      (view written).entries = places rootAt place artifacts := by
  obtain ⟨units, roots, hroots, hinv, hrootEntries⟩ :=
    mapEach_writes view (fun entry : Str × Fields => (rootAt entry.1, entry.2)) hroot hfresh
  obtain ⟨more, written, hservices, -, hentries⟩ :=
    mapEach_writes view (fun entry : Str × Fields => (place entry.1, entry.2)) hservice hinv
  refine ⟨written, ?_, ?_⟩
  · rw [Py.bind_ok hroots, Py.bind_ok hservices]
    rfl
  · rw [hentries, hrootEntries, hempty]
    exact update_places hnodup

end Passes

section FilePass

variable {directory : Location}

def servicesDirectory (directory : Location) : Location := directory ++ [("services" : Str)]

-- What a pass over files has done so far: it wrote root documents and files
-- under `services`, and no directory is below `services`.
structure Written (directory : Location) (files : FileSystem) : Prop where
  planned : ∀ location ∈ files.documents.keys,
    (∃ name ∈ rootNames, location = directory ++ [name]) ∨ DirectFile directory location
  directories : ∀ location ∈ files.directories, location <+: servicesDirectory directory

theorem written_fresh : Written directory (FileSystem.fresh directory) := by
  constructor
  · simp [FileSystem.fresh, Dict.keys]
  · intro location hlocation
    rw [FileSystem.fresh, List.mem_toFinset, List.mem_inits] at hlocation
    exact hlocation.trans (List.prefix_append directory _)

theorem Written.root_free {files : FileSystem} (h : Written directory files) {name : Str} (hname : name ∈ rootNames) :
    directory ++ [name] ∉ files.directories := by
  intro hmem
  have hprefix := h.directories _ hmem
  rw [servicesDirectory, List.prefix_append_right_inj, List.cons_prefix_cons] at hprefix
  exact (rootNames_plain name hname).2.2.2 hprefix.1

theorem Written.service_free {files : FileSystem} (h : Written directory files) (file : Str) :
    directory ++ [("services" : Str), file] ∉ files.directories := by
  intro hmem
  have hlength := (h.directories _ hmem).length_le
  simp [servicesDirectory] at hlength

-- No file stands where the directory of the services is needed.
theorem Written.makeDirectories_services {files : FileSystem} (h : Written directory files) :
    ∃ after, makeDirectories directory [("services" : Str)] files = (.ok (servicesDirectory directory), after) ∧
      Written directory after ∧ after.documents = files.documents := by
  have henter : enter directory ("services" : Str) = servicesDirectory directory := enter_plain directory (by decide)
  have hnone : (files.documents.get? (servicesDirectory directory)).isSome = false := by
    rw [Bool.eq_false_iff]
    intro hsome
    have hmem := (Dict.mem_keys_iff files.documents (servicesDirectory directory)).mpr hsome
    rcases h.planned _ hmem with ⟨name, hname, heq⟩ | ⟨file, heq⟩
    · rw [servicesDirectory, List.append_cancel_left_eq, List.singleton_inj] at heq
      exact (rootNames_plain name hname).2.2.2 heq.symm
    · simp [servicesDirectory] at heq
  refine ⟨{ files with directories := insert (servicesDirectory directory) files.directories }, ?_, ?_, rfl⟩
  · simp only [makeDirectories, Py.bind_apply, Py.get_apply, henter, hnone]
    rfl
  · refine ⟨h.planned, fun location hlocation => ?_⟩
    rcases Finset.mem_insert.mp hlocation with rfl | hold
    · exact List.prefix_refl _
    · exact h.directories location hold

-- A write whose parent directory can be made and whose target is free.
theorem writeJson_ok {location parent : Location} {parents : List Str} {text : Str} {document : Fields}
    {files made : FileSystem} (hparents : parents = [] ∨ parents = [("services" : Str)])
    (hmake : makeDirectories location parents files = (.ok parent, made))
    (hnul : (0 : CodePoint) ∉ text) (hlength : 2 < text.length)
    (hdocument : (Json.obj document).encodable = true) (hfree : parent ++ [text] ∉ made.directories) :
    writeJson ⟨location, parents ++ [text]⟩ document files =
      (.ok (), { made with documents := made.documents.set (parent ++ [text]) document }) := by
  have hplain : ¬∃ segment ∈ parents, (0 : CodePoint) ∈ segment := by
    rcases hparents with rfl | rfl
    · simp
    · simp only [List.mem_singleton, exists_eq_left]
      decide
  simp only [writeJson, List.dropLast_concat, hplain, if_false, Py.bind_ok hmake, Py.bind_apply, Py.get_apply,
    List.getLast?_concat, Option.getD_some, hnul, hdocument, enter_plain parent hlength, hfree]
  rfl

theorem Written.set_document {files : FileSystem} (h : Written directory files) {location : Location}
    (hlocation : (∃ name ∈ rootNames, location = directory ++ [name]) ∨ DirectFile directory location)
    (document : Fields) : Written directory { files with documents := files.documents.set location document } := by
  refine ⟨fun other hother => ?_, h.directories⟩
  rcases Entries.mem_keys_set.mp hother with rfl | hold
  · exact hlocation
  · exact h.planned other hold

theorem root_written {entry : Str × Fields} (hname : entry.1 ∈ rootNames)
    (hdocument : (Json.obj entry.2).encodable = true) {files : FileSystem} (hfiles : Written directory files) :
    ∃ after, writeJson ((Path.ofLocation directory).join entry.1) entry.2 files = (.ok (), after) ∧
      Written directory after ∧ after.documents = files.documents.set (directory ++ [entry.1]) entry.2 := by
  obtain ⟨hsep, hnul, hlength, -⟩ := rootNames_plain entry.1 hname
  rw [Path.join_plain _ hsep hlength]
  refine ⟨_, writeJson_ok (Or.inl rfl) rfl hnul hlength hdocument (hfiles.root_free hname), ?_, rfl⟩
  exact hfiles.set_document (Or.inl ⟨entry.1, hname, rfl⟩) entry.2

theorem service_written {entry : Str × Fields} (hname : separator ∉ entry.1 ∧ (0 : CodePoint) ∉ entry.1)
    (hdocument : (Json.obj entry.2).encodable = true) {files : FileSystem} (hfiles : Written directory files) :
    ∃ after, writeJson (((Path.ofLocation directory).join "services").join (serviceFile entry.1)) entry.2 files =
        (.ok (), after) ∧ Written directory after ∧
      after.documents = files.documents.set (directory ++ [("services" : Str), serviceFile entry.1]) entry.2 := by
  have hsep : separator ∉ serviceFile entry.1 := by rw [separator_serviceFile]; exact hname.1
  have hnul : (0 : CodePoint) ∉ serviceFile entry.1 := by rw [nul_serviceFile]; exact hname.2
  have hlength := length_serviceFile entry.1
  have htarget : servicesDirectory directory ++ [serviceFile entry.1] =
      directory ++ [("services" : Str), serviceFile entry.1] := by simp [servicesDirectory]
  obtain ⟨made, hmake, hmade, hsame⟩ := hfiles.makeDirectories_services
  have hdirectory : (Path.ofLocation directory).join "services" = ⟨directory, [("services" : Str)]⟩ :=
    Path.join_plain _ (by decide) (by decide)
  rw [hdirectory, Path.join_plain _ hsep hlength, ← htarget, ← hsame]
  refine ⟨_, writeJson_ok (Or.inr rfl) hmake hnul hlength hdocument ?_, ?_, rfl⟩
  · rw [htarget]
    exact hmade.service_free _
  · rw [htarget]
    exact hmade.set_document (Or.inr ⟨_, rfl⟩) entry.2

-- A file whose path holds a NUL is not written.
theorem nul_of_writeJson {path : Path} {document : Fields} {before after : FileSystem}
    (h : writeJson path document before = (.ok (), after)) : ∀ segment ∈ path.segments, (0 : CodePoint) ∉ segment := by
  intro segment hsegment hnul
  rw [writeJson] at h
  split at h
  · cases h
  · rename_i hparents
    obtain ⟨parent, made, -, h⟩ := Py.exists_of_bind_ok h
    simp only [Py.bind_apply, Py.get_apply] at h
    split at h
    · cases h
    · rename_i hname
      rcases List.eq_nil_or_concat path.segments with hnil | ⟨parents, last, heq⟩
      · rw [hnil] at hsegment
        cases hsegment
      · rw [List.concat_eq_append] at heq
        simp only [heq, List.dropLast_concat, List.getLast?_concat, Option.getD_some] at hparents hname
        rw [heq, List.mem_append, List.mem_singleton] at hsegment
        rcases hsegment with hparent | rfl
        · exact hparents ⟨segment, hparent, hnul⟩
        · exact hname hnul

variable [UnicodeData] [Calendar] [TrueDivision] {c : Catalog} {sources : List ServiceEndpoint} {generatedAt : Str}
  {artifacts : Artifacts}

theorem publishes_files (hbuild : buildArtifacts c sources generatedAt = .ok artifacts)
    (hdocuments : EncodableDocuments artifacts)
    (hnames : ∀ name ∈ artifacts.services.keys, separator ∉ name ∧ (0 : CodePoint) ∉ name) :
    PublishesAt (fun name => directory ++ [name]) (DirectFile directory) artifacts.services.keys
      (filesOf directory c sources generatedAt) := by
  have hroot : ∀ entry ∈ rootDocuments artifacts, entry.1 ∈ rootNames := by
    intro entry hentry
    rw [← keys_rootDocuments artifacts]
    exact List.mem_map_of_mem hentry
  have hnodup : (Entries.keys (places (fun name => directory ++ [name])
      (fun name => directory ++ [("services" : Str), serviceFile name]) artifacts)).Nodup := by
    refine nodup_places ?_ ?_ ?_ artifacts
    · intro first second h
      simpa using h
    · intro first second h
      exact serviceFile_injective (by simpa using h)
    · intro name hname other h
      simpa using congrArg List.length h
  obtain ⟨written, hpass, hentries⟩ := pass_ok FileSystem.documents _ _ _ _ (Written directory) written_fresh rfl
    (fun entry hentry files hfiles => root_written (hroot entry hentry)
      (hdocuments entry (List.mem_append_left _ hentry)) hfiles)
    (fun entry hentry files hfiles => service_written (hnames entry.1 (List.mem_map_of_mem hentry))
      (hdocuments entry (List.mem_append_right _ hentry)) hfiles) hnodup
  have hrun : writeArtifacts directory c sources generatedAt (FileSystem.fresh directory) =
      (.ok artifacts, written) := by
    rw [writeArtifacts, hbuild]
    exact hpass
  refine ⟨artifacts, ?_, rfl, _, ?_, fun name _ => ⟨serviceFile name, rfl⟩⟩
  · rw [filesOf, hrun]
    rfl
  · rw [filesOf, hrun]
    exact hentries

-- What a pass over files that publishes tells of the names.
theorem of_publishes_files {names : List Str} (hnames : ∀ name ∈ names, separator ∉ name)
    (h : PublishesAt (fun name => directory ++ [name]) (DirectFile directory) names
      (filesOf directory c sources generatedAt)) : ∀ name ∈ names, (0 : CodePoint) ∉ name := by
  obtain ⟨artifacts, hpass, hkeys, -⟩ := h
  have hrun : writeArtifacts directory c sources generatedAt (FileSystem.fresh directory) = (.ok artifacts, _) :=
    Prod.ext hpass rfl
  obtain ⟨built, start, hbuild, hrun⟩ := Py.exists_of_bind_ok hrun
  obtain ⟨units, roots, hroots, hrun⟩ := Py.exists_of_bind_ok hrun
  obtain ⟨more, last, hservices, hlast⟩ := Py.exists_of_bind_ok hrun
  cases hlast
  intro name hname hnul
  have hsep : separator ∉ serviceFile name := by rw [separator_serviceFile]; exact hnames name hname
  rw [← hkeys] at hname
  obtain ⟨entry, hentry, rfl⟩ := List.mem_map.mp hname
  obtain ⟨before, after, hwrite⟩ := round_of_mapEach hservices hentry
  rw [Path.join_plain _ hsep (length_serviceFile entry.1)] at hwrite
  exact nul_of_writeJson hwrite (serviceFile entry.1) (by simp) (nul_serviceFile.mpr hnul)

end FilePass

section ObjectPass

variable {store : S3ArtifactStore}

theorem key_eq {text : Str} (h : text.head? ≠ some separator) : store.key text = store.root ++ text := by
  have hdrop : text.dropWhile (fun c => c = separator) = text := by
    cases text with
    | nil => rfl
    | cons first rest =>
        have hfirst : first ≠ separator := fun he => h (congrArg some he)
        simp [hfirst]
  simp only [S3ArtifactStore.key, hdrop, S3ArtifactStore.root]
  split <;> rfl

-- Where the document of a service is put.
def serviceKey (store : S3ArtifactStore) (name : Str) : Str :=
  store.root ++ ("services/" : Str) ++ serviceFile name

theorem key_service (name : Str) : store.key (("services/" : Str) ++ serviceFile name) = serviceKey store name := by
  have hfirst : ("services/" : Str).head? = some (CodePoint.ofChar 's') := by decide
  have hhead : (("services/" : Str) ++ serviceFile name).head? ≠ some separator := by
    rw [List.head?_append, hfirst, Option.some_or]
    decide
  rw [key_eq hhead, serviceKey, List.append_assoc]

theorem key_root {name : Str} (h : name ∈ rootNames) : store.key name = store.root ++ name := by
  apply key_eq
  intro hhead
  exact (rootNames_plain name h).1 (List.mem_of_mem_head? hhead)

theorem rootNames_apart : ∀ name ∈ rootNames, ("services/" : Str).isPrefixOf name = false := by decide +kernel

theorem nodup_keys (store : S3ArtifactStore) (artifacts : Artifacts) :
    (Entries.keys (places (store.root ++ ·) (serviceKey store) artifacts)).Nodup := by
  refine nodup_places (fun _ _ h => List.append_cancel_left h)
    (fun _ _ h => serviceFile_injective (List.append_cancel_left h)) ?_ artifacts
  intro name hname other h
  have hkey : name = ("services/" : Str) ++ serviceFile other := by
    simpa [serviceKey] using h
  have hprefix := List.isPrefixOf_iff_prefix.mpr (List.prefix_append ("services/" : Str) (serviceFile other))
  rw [← hkey, rootNames_apart name hname] at hprefix
  cases hprefix

theorem write_ok {document : Fields} (h : (Json.obj document).encodable = true) (key : Str)
    (objects : Dict Str Fields) :
    store.write key document objects = (.ok (), objects.set (store.key key) document) := by
  simp [S3ArtifactStore.write, h]

theorem encodable_of_write {document : Fields} {key : Str} {before after : Dict Str Fields}
    (h : store.write key document before = (.ok (), after)) : (Json.obj document).encodable = true := by
  by_contra hdocument
  rw [S3ArtifactStore.write, if_pos (Bool.not_eq_true _ ▸ hdocument)] at h
  cases h

variable [UnicodeData] [Calendar] [TrueDivision] {c : Catalog} {sources : List ServiceEndpoint} {generatedAt : Str}
  {artifacts : Artifacts}

theorem objects_written (store : S3ArtifactStore) (hbuild : buildArtifacts c sources generatedAt = .ok artifacts)
    (hdocuments : EncodableDocuments artifacts) :
    ∃ written, writeArtifactsToS3 store c sources generatedAt Dict.empty = (.ok artifacts, written) ∧
      written.entries = places (store.root ++ ·) (serviceKey store) artifacts := by
  have hroot : ∀ entry ∈ rootDocuments artifacts, entry.1 ∈ rootNames := by
    intro entry hentry
    rw [← keys_rootDocuments artifacts]
    exact List.mem_map_of_mem hentry
  obtain ⟨written, hpass, hentries⟩ := pass_ok id (store.root ++ ·) (serviceKey store)
    (fun entry => store.write entry.1 entry.2)
    (fun entry => store.write (("services/" : Str) ++ serviceFile entry.1) entry.2) (fun _ => True) trivial rfl
    (fun entry hentry objects _ => by
      rw [← key_root (hroot entry hentry)]
      exact ⟨_, write_ok (hdocuments entry (List.mem_append_left _ hentry)) _ objects, trivial, rfl⟩)
    (fun entry hentry objects _ => by
      rw [← key_service]
      exact ⟨_, write_ok (hdocuments entry (List.mem_append_right _ hentry)) _ objects, trivial, rfl⟩)
    (nodup_keys store artifacts)
  refine ⟨written, ?_, hentries⟩
  rw [writeArtifactsToS3, hbuild]
  exact hpass

theorem publishes_objects (hbuild : buildArtifacts c sources generatedAt = .ok artifacts)
    (hdocuments : EncodableDocuments artifacts) (hnames : ∀ name ∈ artifacts.services.keys, separator ∉ name) :
    PublishesAt (store.root ++ ·) (DirectKey store) artifacts.services.keys
      (objectsOf store c sources generatedAt) := by
  obtain ⟨written, hpass, hentries⟩ := objects_written store hbuild hdocuments
  refine ⟨artifacts, ?_, rfl, serviceKey store, ?_, fun name hname => ⟨serviceFile name, ?_, rfl⟩⟩
  · rw [objectsOf, hpass]
  · rw [objectsOf, hpass]
    exact hentries
  · rw [separator_serviceFile]
    exact hnames name hname

-- A pass that returns has built the artifacts and run both loops.
theorem run_of_objects {written : Dict Str Fields}
    (h : writeArtifactsToS3 store c sources generatedAt Dict.empty = (.ok artifacts, written)) :
    buildArtifacts c sources generatedAt = .ok artifacts ∧ EncodableDocuments artifacts := by
  obtain ⟨built, start, hbuild, h⟩ := Py.exists_of_bind_ok h
  obtain ⟨units, roots, hroots, h⟩ := Py.exists_of_bind_ok h
  obtain ⟨more, last, hservices, hlast⟩ := Py.exists_of_bind_ok h
  rw [Py.lift_apply, Prod.mk.injEq] at hbuild
  cases hlast
  refine ⟨hbuild.1, fun entry hentry => ?_⟩
  rcases List.mem_append.mp hentry with hroot | hservice
  · obtain ⟨before, after, hwrite⟩ := round_of_mapEach hroots hroot
    exact encodable_of_write hwrite
  · obtain ⟨before, after, hwrite⟩ := round_of_mapEach hservices hservice
    exact encodable_of_write hwrite

-- What a pass that publishes tells of the artifacts.
theorem of_publishes_objects {names : List Str}
    (h : PublishesAt (store.root ++ ·) (DirectKey store) names (objectsOf store c sources generatedAt)) :
    ∃ artifacts, buildArtifacts c sources generatedAt = .ok artifacts ∧ EncodableDocuments artifacts ∧
      ∀ name ∈ names, separator ∉ name := by
  obtain ⟨artifacts, hpass, hkeys, place, hentries, hdirect⟩ := h
  obtain ⟨hbuild, hdocuments⟩ := run_of_objects (Prod.ext hpass rfl)
  refine ⟨artifacts, hbuild, hdocuments, fun name hname => ?_⟩
  obtain ⟨written, hwritten, hplaces⟩ := objects_written store hbuild hdocuments
  rw [objectsOf, hwritten, hplaces, places, List.append_cancel_left_eq] at hentries
  rw [← hkeys] at hname
  obtain ⟨entry, hentry, rfl⟩ := List.mem_map.mp hname
  have hplace : serviceKey store entry.1 = place entry.1 :=
    congrArg Prod.fst (List.map_inj_left.mp hentries entry hentry)
  obtain ⟨file, hfile, hkey⟩ := hdirect entry.1 (hkeys ▸ hname)
  rw [← hplace, serviceKey, List.append_cancel_left_eq] at hkey
  rwa [← hkey, separator_serviceFile] at hfile

end ObjectPass

end Benzene.Mesh
