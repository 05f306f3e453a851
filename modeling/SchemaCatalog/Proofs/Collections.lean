/-
# The files that are collected

Collecting looks at the files at and below the paths it is given, path by path and in the order of
a walk.  The files marked by an extension are found, the others are counted, and no file is
overlooked or found elsewhere.  A path that leads nowhere ends it, and so does a path that has
become too long for a directory to be entered or for a file to be located.
-/
import SchemaCatalog.Command.Collection
import SchemaCatalog.Proofs.Encoding
import SchemaCatalog.Proofs.Paths
import Mathlib.Data.List.TakeWhile

namespace SchemaCatalog.Command

open Files (FileSystem Entry Node Target FileName Path Precedes spell maxPathBytes absolutePath
  canonicalPath)
open Text (encode mend)

/-! ## Marked files -/

/-- Whether one of the extensions marks a name: behind the last dot of the name, which is not its
first byte, stands an extension without the dots that it starts with.  Extensions are texts, so
what is no text in a name is mended before it is compared. -/
def IsMarked (extensions : List String) (name : FileName) : Prop :=
  ∃ (stem : FileName) (dots : List Char) (ending : List UInt8), name = stem ++ Files.dot :: ending ∧
    stem ≠ [] ∧ Files.dot ∉ ending ∧ (∀ c ∈ dots, c = '.') ∧
      String.ofList (dots ++ (mend ending).toList) ∈ extensions

theorem dropWhile_dots_eq_iff {cs ending : List Char} (h : '.' ∉ ending) :
    cs.dropWhile (· == '.') = ending ↔ ∃ dots, (∀ c ∈ dots, c = '.') ∧ cs = dots ++ ending := by
  constructor
  · rintro rfl
    refine ⟨cs.takeWhile (· == '.'), fun c hc => ?_, List.takeWhile_append_dropWhile.symm⟩
    have := List.mem_takeWhile_imp hc
    exact beq_iff_eq.1 this
  · rintro ⟨dots, hdots, rfl⟩
    rw [List.dropWhile_append_of_pos fun c hc => beq_iff_eq.2 (hdots c hc)]
    cases ending with
    | nil => rfl
    | cons c cs => exact List.dropWhile_cons_of_neg fun hc => h (by simp [beq_iff_eq.1 hc])

/-- The extensions that are one without their dots are those that have it behind dots. -/
theorem bareExtension_eq_iff {given e : String} (h : '.' ∉ e.toList) :
    bareExtension given = e ↔
      ∃ dots, (∀ c ∈ dots, c = '.') ∧ given = String.ofList (dots ++ e.toList) := by
  rw [bareExtension, ← String.toList_inj, String.toList_ofList, dropWhile_dots_eq_iff h]
  simp only [← String.toList_inj, String.toList_ofList]

/-- A name is marked exactly by the extension that it has, once it is mended. -/
theorem isMarked_iff {extensions : List String} {name : FileName} :
    IsMarked extensions name ↔
      ∃ e, Files.extensionOfName name = some e ∧ mend e ∈ extensions.map bareExtension := by
  simp only [Files.extensionOfName_eq_some_iff, List.mem_map]
  constructor
  · rintro ⟨stem, dots, ending, hname, hstem, hending, hdots, hmem⟩
    have hmended := (bareExtension_eq_iff (Text.not_mem_mend hending)).2 ⟨dots, hdots, rfl⟩
    exact ⟨ending, ⟨stem, hstem, hname, hending⟩, _, hmem, hmended⟩
  · rintro ⟨e, ⟨stem, hstem, hname, he⟩, given, hmem, hgiven⟩
    obtain ⟨dots, hdots, rfl⟩ := (bareExtension_eq_iff (Text.not_mem_mend he)).1 hgiven
    exact ⟨stem, dots, e, hname, hstem, he, hdots, hmem⟩

instance (extensions : List String) (name : FileName) : Decidable (IsMarked extensions name) :=
  decidable_of_iff
    ((Files.extensionOfName name).any (mend · ∈ extensions.map bareExtension) = true)
    (by rw [isMarked_iff, Option.any_eq_true]; simp only [decide_eq_true_eq])

/-- The last of the names that lead to an entry. -/
def nameOf (e : Entry) : FileName := e.location.getLastD []

/-- A file that is found below a path is a schema file exactly if its name is marked. -/
theorem isSchemaPath_spell {fs : FileSystem} (hfs : fs.IsProper) (inputs : Inputs) {path : Path}
    {t : Target} (h : fs.resolve path = .ok t) {names : List FileName} {bytes : List UInt8}
    (hn : t.node.at? names = some (.file bytes)) :
    isSchemaPath inputs (spell path names) = true ↔
      IsMarked inputs.extensions ((t.location ++ names).getLastD []) := by
  obtain ⟨name, hname, hlast⟩ := FileSystem.fileName?_spell hfs h hn
  rw [List.getLastD_eq_getLast?, hlast, Option.getD_some, isMarked_iff, isSchemaPath,
    Files.extension?, hname, Option.bind_some]
  cases Files.extensionOfName name with
  | none => simp
  | some e => simp

/-! ## The survey of a path -/

/-- Why the walk from a path to a target ends where names lead: a directory whose path has become
too long cannot be entered, and a marked file with too long a path cannot be located. -/
inductive Stops (inputs : Inputs) (path : Path) (t : Target) : List FileName → CollectError → Prop
  | directory {names : List FileName} {es : List (FileName × Node)}
      (h : t.node.at? names = some (.dir es))
      (long : maxPathBytes < (spell path names).length) :
      Stops inputs path t names (.unreachable path (spell path names) .tooLong)
  | file {names : List FileName} {bytes : List UInt8} (h : t.node.at? names = some (.file bytes))
      (marked : IsMarked inputs.extensions ((t.location ++ names).getLastD []))
      (long : maxPathBytes < (absolutePath (t.location ++ names)).length) :
      Stops inputs path t names (.unlocatable .tooLong)

/-- Why there is no survey of a path: it leads nowhere, or the walk from it ends at the first place
where it has to. -/
inductive Fails (fs : FileSystem) (inputs : Inputs) (path : Path) : CollectError → Prop
  | missing {cause : Files.PathError} (h : fs.resolve path = .error cause) :
      Fails fs inputs path (.unreachable path path cause)
  | stopped {t : Target} {names : List FileName} {e : CollectError} (h : fs.resolve path = .ok t)
      (stops : Stops inputs path t names e)
      (first : ∀ names' e', Stops inputs path t names' e' →
        names' = names ∨ Precedes names names') :
      Fails fs inputs path e

/-- The files at and below the target of a path, each once and in the order of their names. -/
structure Lists (path : Path) (t : Target) (files : List Entry) : Prop where
  mem_iff : ∀ e, e ∈ files ↔ ∃ names bytes, t.node.at? names = some (.file bytes) ∧
    e = ⟨spell path names, t.location ++ names, true⟩
  ordered : files.Pairwise fun e f => Precedes e.location f.location

/-- The survey of a path from which a walk comes to its end. -/
def Surveys (fs : FileSystem) (inputs : Inputs) (path : Path) (files : List Entry) : Prop :=
  ∃ t, fs.resolve path = .ok t ∧ (∀ names e, ¬Stops inputs path t names e) ∧ Lists path t files

section Survey

variable {fs : FileSystem} {inputs : Inputs} {path : Path} {t : Target}

theorem canonicalPath_eq (location : List FileName) :
    canonicalPath location = if maxPathBytes < (absolutePath location).length then
      .error .tooLong else .ok (absolutePath location) := rfl

/-- A walk ends at the entries that are obstacles. -/
theorem obstacle?_entryAt (hfs : fs.IsProper) (h : fs.resolve path = .ok t) {names : List FileName}
    {n : Node} (hn : t.node.at? names = some n) (e : CollectError) :
    obstacle? inputs path (t.node.entryAt path t.location names) = some e ↔
      Stops inputs path t names e := by
  cases n with
  | dir es =>
    have hentry : t.node.entryAt path t.location names =
        ⟨spell path names, t.location ++ names, false⟩ := by
      rw [Node.entryAt, hn]
      rfl
    simp only [hentry, obstacle?, Bool.false_eq_true, if_false, Option.ite_none_right_eq_some,
      Option.some.injEq]
    constructor
    · rintro ⟨hlong, rfl⟩
      exact .directory hn hlong
    · intro hstops
      cases hstops with
      | directory _ hlong => exact ⟨hlong, rfl⟩
      | file hfile =>
        rw [hn] at hfile
        cases hfile
  | file bytes =>
    have hentry : t.node.entryAt path t.location names =
        ⟨spell path names, t.location ++ names, true⟩ := by
      rw [Node.entryAt, hn]
      rfl
    have hmarked := isSchemaPath_spell hfs inputs h hn
    simp only [hentry, obstacle?, if_true, Option.ite_none_right_eq_some, hmarked,
      canonicalPath_eq]
    constructor
    · rintro ⟨hmark, hlong⟩
      split at hlong
      · cases hlong
      · next cause hcause =>
        split at hcause
        · next hsize =>
          cases hcause
          cases hlong
          exact .file hn hmark hsize
        · cases hcause
    · intro hstops
      cases hstops with
      | directory hdir =>
        rw [hn] at hdir
        cases hdir
      | file _ hmark hlong => exact ⟨hmark, by rw [if_pos hlong]⟩

theorem isProper_of_resolve (hfs : fs.IsProper) (h : fs.resolve path = .ok t) : t.node.IsProper :=
  (hfs.root.at? (FileSystem.at?_of_resolve hfs h)).1

/-- A walk comes by every place below its target once. -/
theorem walk_eq_of_resolve (hfs : fs.IsProper) (h : fs.resolve path = .ok t) :
    t.walk path = t.node.places.map (t.node.entryAt path t.location) :=
  Node.walk_eq (isProper_of_resolve hfs h) path t.location

/-- A walk ends at the places whose entries are obstacles. -/
theorem stops_iff (hfs : fs.IsProper) (h : fs.resolve path = .ok t) {names : List FileName}
    {e : CollectError} :
    Stops inputs path t names e ↔ names ∈ t.node.places ∧
      obstacle? inputs path (t.node.entryAt path t.location names) = some e := by
  rw [Node.mem_places (isProper_of_resolve hfs h)]
  constructor
  · intro hstops
    obtain ⟨n, hn⟩ : ∃ n, t.node.at? names = some n := by
      cases hstops with
      | directory hdir => exact ⟨_, hdir⟩
      | file hfile => exact ⟨_, hfile⟩
    exact ⟨⟨n, hn⟩, (obstacle?_entryAt hfs h hn e).2 hstops⟩
  · rintro ⟨⟨n, hn⟩, hobstacle⟩
    exact (obstacle?_entryAt hfs h hn e).1 hobstacle

/-- If a walk meets no obstacle, it ends nowhere. -/
theorem not_stops_of_findSome? (hfs : fs.IsProper) (h : fs.resolve path = .ok t)
    (hnone : (t.walk path).findSome? (obstacle? inputs path) = none) (names : List FileName)
    (e : CollectError) : ¬Stops inputs path t names e := by
  rw [walk_eq_of_resolve hfs h, List.findSome?_eq_none_iff, List.forall_mem_map] at hnone
  rw [stops_iff hfs h]
  rintro ⟨hnames, hobstacle⟩
  rw [hnone names hnames] at hobstacle
  cases hobstacle

/-- The first obstacle of a walk is where it ends. -/
theorem fails_of_findSome? (hfs : fs.IsProper) (h : fs.resolve path = .ok t) {e : CollectError}
    (hsome : (t.walk path).findSome? (obstacle? inputs path) = some e) :
    Fails fs inputs path e := by
  rw [walk_eq_of_resolve hfs h, List.findSome?_map, List.findSome?_eq_some_iff] at hsome
  obtain ⟨before, names, after, hplaces, hnames, hbefore⟩ := hsome
  have hordered := Node.pairwise_places (isProper_of_resolve hfs h)
  rw [hplaces, List.pairwise_append, List.pairwise_cons] at hordered
  have hstops : Stops inputs path t names e := (stops_iff hfs h).2 ⟨by simp [hplaces], hnames⟩
  refine .stopped h hstops fun names' e' hstops' => ?_
  obtain ⟨hmem, hobstacle⟩ := (stops_iff hfs h).1 hstops'
  rw [hplaces, List.mem_append, List.mem_cons] at hmem
  rcases hmem with hmem | rfl | hmem
  · have := hbefore names' hmem
    rw [Function.comp_apply, hobstacle] at this
    cases this
  · exact Or.inl rfl
  · exact Or.inr (hordered.2.1.1 names' hmem)

/-- The files that a walk comes by are those at and below the target. -/
theorem lists_of_resolve (hfs : fs.IsProper) (h : fs.resolve path = .ok t) :
    Lists path t ((t.walk path).filter (·.isFile)) := by
  have hproper := isProper_of_resolve hfs h
  rw [walk_eq_of_resolve hfs h]
  constructor
  · intro e
    simp only [List.mem_filter, List.mem_map, Node.mem_places hproper]
    constructor
    · rintro ⟨⟨names, ⟨n, hn⟩, rfl⟩, hfile⟩
      simp only [Node.entryAt, hn, Option.any_some] at hfile ⊢
      cases n with
      | file bytes => exact ⟨names, bytes, hn, rfl⟩
      | dir es => cases hfile
    · rintro ⟨names, bytes, hn, rfl⟩
      exact ⟨⟨names, ⟨_, hn⟩, by simp [Node.entryAt, hn, Node.isFile]⟩, rfl⟩
  · refine List.Pairwise.filter _ (List.pairwise_map.2 ?_)
    exact (Node.pairwise_places hproper).imp fun hlex => List.Lex.append_left _ hlex t.location

end Survey

/-! ## Scanning -/

section Scanning

variable {fs : FileSystem} {inputs : Inputs}

/-- A scan fails for the first path of which there is no survey. -/
theorem scan_error (hfs : fs.IsProper) {paths : List Path} {e : CollectError}
    (h : scan fs inputs paths = .error e) :
    ∃ before path after, paths = before ++ path :: after ∧
      (∀ p ∈ before, ∃ files, Surveys fs inputs p files) ∧ Fails fs inputs path e := by
  induction paths with
  | nil => cases h
  | cons path rest ih =>
    rw [scan] at h
    split at h
    · next cause hcause =>
      cases h
      exact ⟨[], path, rest, rfl, by simp, .missing hcause⟩
    · next t ht =>
      split at h
      · next e' he =>
        cases h
        exact ⟨[], path, rest, rfl, by simp, fails_of_findSome? hfs ht he⟩
      · next hnone =>
        split at h
        · cases h
        · next e' he =>
          cases h
          obtain ⟨before, p, after, rfl, hbefore, hfails⟩ := ih he
          refine ⟨path :: before, p, after, rfl, List.forall_mem_cons.2 ⟨?_, hbefore⟩, hfails⟩
          exact ⟨_, t, ht, not_stops_of_findSome? hfs ht hnone, lists_of_resolve hfs ht⟩

/-- The files of a scan are those of the surveys of the paths. -/
theorem scan_ok (hfs : fs.IsProper) {paths : List Path} {entries : List Entry}
    (h : scan fs inputs paths = .ok entries) :
    ∃ surveys, List.Forall₂ (Surveys fs inputs) paths surveys ∧
      entries.filter (·.isFile) = surveys.flatten := by
  induction paths generalizing entries with
  | nil =>
    cases h
    exact ⟨[], .nil, rfl⟩
  | cons path rest ih =>
    rw [scan] at h
    split at h
    · cases h
    · next t ht =>
      split at h
      · cases h
      · next hnone =>
        split at h
        · next entries' hentries =>
          cases h
          obtain ⟨surveys, hsurveys, hflat⟩ := ih hentries
          refine ⟨(t.walk path).filter (·.isFile) :: surveys, .cons ?_ hsurveys, ?_⟩
          · exact ⟨t, ht, not_stops_of_findSome? hfs ht hnone, lists_of_resolve hfs ht⟩
          · rw [List.filter_append, hflat, List.flatten_cons]
        · cases h

/-- A file of a survey lies at its location, and can be located if it is marked. -/
theorem Surveys.at? (hfs : fs.IsProper) {path : Path} {files : List Entry}
    (h : Surveys fs inputs path files) {e : Entry} (he : e ∈ files) :
    (∃ bytes, fs.root.at? e.location = some (.file bytes)) ∧
      isSchemaFile inputs e = decide (IsMarked inputs.extensions (nameOf e)) ∧
      (IsMarked inputs.extensions (nameOf e) →
        (absolutePath e.location).length ≤ maxPathBytes) := by
  obtain ⟨t, ht, hstops, hlists⟩ := h
  obtain ⟨names, bytes, hn, rfl⟩ := (hlists.mem_iff e).1 he
  refine ⟨⟨bytes, FileSystem.at?_append_of_resolve hfs ht hn⟩, ?_, fun hmark => ?_⟩
  · rw [isSchemaFile, Bool.true_and, Bool.eq_iff_iff, decide_eq_true_iff]
    exact isSchemaPath_spell hfs inputs ht hn
  · exact Nat.not_lt.1 fun hlong => hstops names _ (.file hn hmark hlong)

/-- Each file belongs to the survey of one of the paths. -/
theorem exists_surveys_of_mem_flatten {paths : List Path} {surveys : List (List Entry)}
    (h : List.Forall₂ (Surveys fs inputs) paths surveys) {e : Entry} (he : e ∈ surveys.flatten) :
    ∃ path files, Surveys fs inputs path files ∧ e ∈ files := by
  induction h with
  | nil => cases he
  | cons hpath hrest ih =>
    rw [List.flatten_cons, List.mem_append] at he
    rcases he with he | he
    · exact ⟨_, _, hpath, he⟩
    · exact ih he

end Scanning

/-! ## Collecting -/

/-- The files that are marked by an extension asked for. -/
def markedFiles (inputs : Inputs) (files : List Entry) : List Entry :=
  files.filter fun e => IsMarked inputs.extensions (nameOf e)

/-- The files that are not marked by an extension asked for. -/
def otherFiles (inputs : Inputs) (files : List Entry) : List Entry :=
  files.filter fun e => ¬IsMarked inputs.extensions (nameOf e)

/-- Every file is either marked or counted. -/
theorem length_markedFiles_add (inputs : Inputs) (files : List Entry) :
    (markedFiles inputs files).length + (otherFiles inputs files).length = files.length := by
  have := List.length_eq_length_filter_add (l := files)
    fun e => decide (IsMarked inputs.extensions (nameOf e))
  simp only [markedFiles, otherFiles, decide_not]
  exact this.symm

/-- What collecting comes to when the files at and below the paths are known.  The marked files are
found in their order and the others counted; if none is marked, a file that is the only path is
found.  Together they are all files, and the paths that are found lead to files. -/
structure Gathers (fs : FileSystem) (inputs : Inputs) (files : List Entry)
    (result : Except CollectError Collection) : Prop where
  found : markedFiles inputs files ≠ [] →
    result = .ok ⟨(markedFiles inputs files).map fun e => absolutePath e.location,
      (otherFiles inputs files).length⟩
  lone : ∀ path location bytes, markedFiles inputs files = [] → inputs.paths = [path] →
    fs.resolve path = .ok ⟨location, .file bytes⟩ →
    files = [⟨path, location, true⟩] ∧
      result = if maxPathBytes < (absolutePath location).length then
        .error (.unlocatable .tooLong) else .ok ⟨[absolutePath location], 0⟩
  none : markedFiles inputs files = [] →
    (∀ path location bytes, inputs.paths = [path] →
      fs.resolve path ≠ .ok ⟨location, .file bytes⟩) → result = .error (.noFiles inputs.paths)
  total : ∀ c, result = .ok c → c.paths.length + c.skipped = files.length
  leads : ∀ c, result = .ok c → ∀ path ∈ c.paths, ∃ e ∈ files, path = absolutePath e.location ∧
    ∃ bytes, fs.resolve path = .ok ⟨e.location, .file bytes⟩

/-- A single path that leads to a file is tried on its own. -/
theorem loneFile?_eq_some_iff {fs : FileSystem} {inputs : Inputs} {location : List FileName} :
    loneFile? fs inputs = some location ↔ ∃ path bytes, inputs.paths = [path] ∧
      fs.resolve path = .ok ⟨location, .file bytes⟩ := by
  rw [loneFile?]
  constructor
  · intro h
    split at h
    · next path hpath =>
      split at h
      · next t ht =>
        obtain ⟨location', node⟩ := t
        cases node with
        | file bytes =>
          cases h
          exact ⟨path, bytes, hpath, ht⟩
        | dir es => cases h
      · cases h
    · cases h
  · rintro ⟨path, bytes, hpath, ht⟩
    rw [hpath]
    simp only [ht, Node.isFile, if_true]

section Gathering

variable {fs : FileSystem} {inputs : Inputs} {entries : List Entry}

/-- If a file is the only path, nothing else is looked at. -/
theorem filter_of_lone {path : Path} {location : List FileName} {bytes : List UInt8}
    (hpath : inputs.paths = [path]) (h : fs.resolve path = .ok ⟨location, .file bytes⟩)
    (hscan : scan fs inputs inputs.paths = .ok entries) :
    entries.filter (·.isFile) = [⟨path, location, true⟩] := by
  rw [hpath, scan, h] at hscan
  simp only [Target.walk, Node.walk_file, scan, List.append_nil] at hscan
  split at hscan
  · cases hscan
  · cases hscan
    rfl

/-- What is collected from the entries of a scan, if the marked ones among its files are told. -/
theorem collect_of_scan (hscan : scan fs inputs inputs.paths = .ok entries)
    (hmarked : ∀ e ∈ entries.filter (·.isFile),
      isSchemaFile inputs e = decide (IsMarked inputs.extensions (nameOf e))) :
    collect fs inputs =
      if markedFiles inputs (entries.filter (·.isFile)) = [] then
        match loneFile? fs inputs with
        | some location =>
          match canonicalPath location with
          | .ok path => .ok ⟨[path], (otherFiles inputs (entries.filter (·.isFile))).length - 1⟩
          | .error cause => .error (.unlocatable cause)
        | none => .error (.noFiles inputs.paths)
      else .ok ⟨(markedFiles inputs (entries.filter (·.isFile))).map (absolutePath ·.location),
        (otherFiles inputs (entries.filter (·.isFile))).length⟩ := by
  have hfound : (entries.filter (·.isFile)).filter (isSchemaFile inputs) =
      markedFiles inputs (entries.filter (·.isFile)) := List.filter_congr hmarked
  have hskipped : (entries.filter (·.isFile)).filter (fun e => !isSchemaFile inputs e) =
      otherFiles inputs (entries.filter (·.isFile)) := by
    refine List.filter_congr fun e he => ?_
    rw [hmarked e he, decide_not]
  by_cases hnone : markedFiles inputs (entries.filter (·.isFile)) = []
  · cases hlone : loneFile? fs inputs with
    | none => simp only [collect, hscan, hfound, hskipped, hnone, hlone, List.map_nil,
        List.isEmpty_nil, if_true]
    | some location =>
      cases hpath : canonicalPath location <;>
        simp only [collect, hscan, hfound, hskipped, hnone, hlone, hpath, List.map_nil,
          List.isEmpty_nil, if_true]
  · have hne : ((markedFiles inputs (entries.filter (·.isFile))).map fun e =>
        absolutePath e.location).isEmpty = false := by simpa using hnone
    simp only [collect, hscan, hfound, hskipped, hne, if_neg hnone, Bool.false_eq_true, if_false]

variable {files : List Entry}

/-- If files are marked, these are gathered. -/
theorem gathers_found (hfs : fs.IsProper) (hne : markedFiles inputs files ≠ [])
    (hat : ∀ e ∈ markedFiles inputs files, (∃ bytes, fs.root.at? e.location = some (.file bytes)) ∧
      (absolutePath e.location).length ≤ maxPathBytes) :
    Gathers fs inputs files (.ok ⟨(markedFiles inputs files).map fun e => absolutePath e.location,
      (otherFiles inputs files).length⟩) where
  found _ := rfl
  lone _ _ _ h := absurd h hne
  none h := absurd h hne
  total := by
    rintro c ⟨⟩
    rw [List.length_map]
    exact length_markedFiles_add inputs files
  leads := by
    rintro c ⟨⟩ path hpath
    obtain ⟨e, he, rfl⟩ := List.mem_map.1 hpath
    obtain ⟨⟨bytes, hbytes⟩, hsize⟩ := hat e he
    exact ⟨e, List.mem_of_mem_filter he, rfl, bytes,
      FileSystem.resolve_absolutePath hfs hbytes hsize⟩

/-- If none is marked, a single path that leads to a file is gathered. -/
theorem gathers_lone (hfs : fs.IsProper) {path : Path} {location : List FileName}
    {bytes : List UInt8} (hpath : inputs.paths = [path])
    (h : fs.resolve path = .ok ⟨location, .file bytes⟩)
    (hnone : markedFiles inputs [⟨path, location, true⟩] = []) :
    Gathers fs inputs [⟨path, location, true⟩]
      (if maxPathBytes < (absolutePath location).length then .error (.unlocatable .tooLong)
        else .ok ⟨[absolutePath location], 0⟩) where
  found hne := absurd hnone hne
  lone := by
    intro path' location' bytes' _ hpath' h'
    obtain rfl : path = path' := by simpa using hpath.symm.trans hpath'
    rw [h, Except.ok.injEq, Target.mk.injEq] at h'
    obtain ⟨rfl, -⟩ := h'
    exact ⟨rfl, rfl⟩
  none _ hnot := absurd h (hnot path location bytes hpath)
  total := by
    intro c hc
    split at hc
    · cases hc
    · cases hc
      rfl
  leads := by
    intro c hc path' hmem
    split at hc
    · cases hc
    · next hsize =>
      cases hc
      obtain rfl := List.mem_singleton.1 hmem
      exact ⟨_, List.mem_singleton_self _, rfl, bytes, FileSystem.resolve_absolutePath hfs
        (FileSystem.at?_of_resolve hfs h) (Nat.not_lt.1 hsize)⟩

/-- If none is marked and no path is tried on its own, nothing is gathered. -/
theorem gathers_none (hnone : markedFiles inputs files = [])
    (hnot : ∀ path location bytes, inputs.paths = [path] →
      fs.resolve path ≠ .ok ⟨location, .file bytes⟩) :
    Gathers fs inputs files (.error (.noFiles inputs.paths)) where
  found hne := absurd hnone hne
  lone path location bytes _ hpath h := absurd h (hnot path location bytes hpath)
  none _ _ := rfl
  total := by rintro c ⟨⟩
  leads := by rintro c ⟨⟩

/-- What is collected once all paths have been surveyed is what is gathered from the surveys. -/
theorem gathers_of_scan (hfs : fs.IsProper) (hscan : scan fs inputs inputs.paths = .ok entries)
    {surveys : List (List Entry)} (hsurveys : List.Forall₂ (Surveys fs inputs) inputs.paths surveys)
    (hfiles : entries.filter (·.isFile) = surveys.flatten) :
    Gathers fs inputs surveys.flatten (collect fs inputs) := by
  have hat (e : Entry) (he : e ∈ surveys.flatten) :
      (∃ bytes, fs.root.at? e.location = some (.file bytes)) ∧
        isSchemaFile inputs e = decide (IsMarked inputs.extensions (nameOf e)) ∧
        (IsMarked inputs.extensions (nameOf e) →
          (absolutePath e.location).length ≤ maxPathBytes) := by
    obtain ⟨path, files, hpath, hmem⟩ := exists_surveys_of_mem_flatten hsurveys he
    exact hpath.at? hfs hmem
  rw [collect_of_scan hscan fun e he => (hat e (hfiles ▸ he)).2.1, hfiles]
  -- without a marked file a single path that is a file is taken as it is
  by_cases hnone : markedFiles inputs surveys.flatten = []
  · rw [if_pos hnone]
    cases hlone : loneFile? fs inputs with
    | none =>
      refine gathers_none hnone fun path location bytes hpath h => ?_
      rw [loneFile?_eq_some_iff.2 ⟨path, bytes, hpath, h⟩] at hlone
      cases hlone
    | some location =>
      obtain ⟨path, bytes, hpath, h⟩ := loneFile?_eq_some_iff.1 hlone
      have hflat := hfiles ▸ filter_of_lone hpath h hscan
      have hlength := length_markedFiles_add inputs surveys.flatten
      rw [hnone, hflat, List.length_nil, List.length_singleton, Nat.zero_add] at hlength
      rw [hflat] at hnone ⊢
      have hgathers := gathers_lone hfs hpath h hnone
      simp only [canonicalPath_eq, hlength, Nat.sub_self]
      by_cases hlong : maxPathBytes < (absolutePath location).length
      · simpa only [if_pos hlong] using hgathers
      · simpa only [if_neg hlong] using hgathers
  · rw [if_neg hnone]
    refine gathers_found hfs hnone fun e he => ?_
    obtain ⟨he, hmark⟩ := List.mem_filter.1 he
    exact ⟨(hat e he).1, (hat e he).2.2 (of_decide_eq_true hmark)⟩

end Gathering

/-- **Collecting.**  Collecting fails for the first path of which there is no survey; otherwise it
gathers the files of the surveys in the order of the paths. -/
theorem collect_exact {fs : FileSystem} (hfs : fs.IsProper) (inputs : Inputs) :
    (∃ before path after e, inputs.paths = before ++ path :: after ∧
      (∀ p ∈ before, ∃ files, Surveys fs inputs p files) ∧ Fails fs inputs path e ∧
      collect fs inputs = .error e) ∨
    ∃ surveys : List (List Entry), List.Forall₂ (Surveys fs inputs) inputs.paths surveys ∧
      Gathers fs inputs surveys.flatten (collect fs inputs) := by
  cases hscan : scan fs inputs inputs.paths with
  | error e =>
    obtain ⟨before, path, after, hpaths, hbefore, hfails⟩ := scan_error hfs hscan
    exact Or.inl ⟨before, path, after, e, hpaths, hbefore, hfails, by rw [collect, hscan]⟩
  | ok entries =>
    obtain ⟨surveys, hsurveys, hfiles⟩ := scan_ok hfs hscan
    exact Or.inr ⟨surveys, hsurveys, gathers_of_scan hfs hscan hsurveys hfiles⟩

/-- Two schemas, one of them in a directory, and another file. -/
def twoSchemas : FileSystem where
  root := Node.put (.file []) (["work", "b.graphql"].map encode)
    (Node.put (.file []) (["work", "a", "x.graphql"].map encode)
      (Node.put (.file []) (["work", "README.md"].map encode) (.dir [])))
  workingDirectory := [encode "work"]

theorem isProper_twoSchemas : twoSchemas.IsProper where
  root := .put (.file []) (by decide +kernel) (.put (.file []) (by decide +kernel)
    (.put (.file []) (by decide +kernel) Node.isProper_dir_nil))
  directory := ⟨_, rfl⟩

/-- Both schemas are found from above, the one in the directory first. -/
theorem collect_twoSchemas :
    let inputs : Inputs := ⟨[".graphql"], [encode "."]⟩
    let schemas : Collection := ⟨["/work/a/x.graphql", "/work/b.graphql"].map encode, 1⟩
    twoSchemas.IsProper ∧ collect twoSchemas inputs = .ok schemas ∧
      ∃ surveys, List.Forall₂ (Surveys twoSchemas inputs) [encode "."] surveys ∧
        Gathers twoSchemas inputs surveys.flatten (.ok schemas) := by
  intro inputs schemas
  have hcollect : collect twoSchemas inputs = .ok schemas := by decide +kernel
  refine ⟨isProper_twoSchemas, hcollect, ?_⟩
  have hexact := collect_exact isProper_twoSchemas inputs
  rw [hcollect] at hexact
  rcases hexact with ⟨_, _, _, e, -, -, -, he⟩ | hgathers
  · cases he
  · exact hgathers

/-! ## Where paths become too long, and where names are no texts -/

section Limits

/-- A path that ends in slashes. -/
def slashed (n : Nat) : Path := encode "d" ++ List.replicate n Files.slash

/-- A schema in a directory of a directory. -/
def nestedSchema : FileSystem where
  root := Node.put (.file []) (["work", "d", "sub", "a.graphql"].map encode) (.dir [])
  workingDirectory := [encode "work"]

theorem isProper_nestedSchema : nestedSchema.IsProper where
  root := .put (.file []) (by decide +kernel) Node.isProper_dir_nil
  directory := ⟨_, rfl⟩

theorem length_slashed (n : Nat) : (slashed n).length = n + 1 := by
  rw [slashed, List.length_append, List.length_replicate, Nat.add_comm]
  rfl

/-- Slashes at the end of a path add nothing but empty names. -/
theorem components_slashed (n : Nat) :
    Files.components (slashed n) = encode "d" :: List.replicate n [] := by
  induction n with
  | zero => decide +kernel
  | succ n ih =>
    have hend := Files.components_append_slash (slashed n) []
    rw [ih] at hend
    rw [slashed, List.replicate_succ', ← List.append_assoc, List.replicate_succ',
      ← List.cons_append]
    exact hend

/-- Empty names stay in a directory. -/
theorem follow_replicate {root : Node} {location : List FileName} {es : List (FileName × Node)}
    (h : root.at? location = some (.dir es)) (n : Nat) :
    Files.follow root location (List.replicate n []) = .ok ⟨location, .dir es⟩ := by
  induction n with
  | zero => rw [List.replicate_zero, Files.follow, h]
  | succ n ih =>
    rw [List.replicate_succ, Files.follow, h]
    exact ih

/-- The directory that holds the schema. -/
def nestedDirectory : Node :=
  .dir [(encode "sub", .dir [(encode "a.graphql", .file [])])]

/-- The location of that directory. -/
def nestedLocation : List FileName := ["work", "d"].map encode

theorem resolve_slashed {n : Nat} (h : n + 1 ≤ maxPathBytes) :
    nestedSchema.resolve (slashed n) = .ok ⟨nestedLocation, nestedDirectory⟩ := by
  have hnul : 0 ∉ slashed n := by
    rw [slashed, List.mem_append, List.mem_replicate]
    rintro (h | h)
    · revert h
      decide +kernel
    · cases h.2
  have hne : slashed n ≠ [] := List.ne_nil_of_length_pos (by rw [length_slashed]; omega)
  have hrelative : Files.isAbsolute (slashed n) = false := rfl
  rw [FileSystem.resolve_eq hnul hne (by rw [length_slashed]; exact h), hrelative,
    if_neg Bool.false_ne_true, components_slashed]
  have hdirectory : nestedSchema.root.at? nestedLocation = some nestedDirectory := rfl
  exact follow_replicate hdirectory n

theorem join_slashed {n : Nat} (h : n ≠ 0) (name : FileName) :
    Files.join (slashed n) name = slashed n ++ name := by
  obtain ⟨m, rfl⟩ := Nat.exists_eq_succ_of_ne_zero h
  have hlast : (slashed (m + 1)).getLast? = some Files.slash := by
    rw [slashed, List.replicate_succ', ← List.append_assoc, List.getLast?_concat]
  rw [Files.join, hlast]
  rfl

/-- A walk from a path with slashes shows them in front of every name. -/
theorem walk_slashed {n : Nat} (h : n ≠ 0) :
    (⟨nestedLocation, nestedDirectory⟩ : Target).walk (slashed n) =
      [⟨slashed n, nestedLocation, false⟩,
        ⟨slashed n ++ encode "sub", nestedLocation ++ [encode "sub"], false⟩,
        ⟨Files.join (slashed n ++ encode "sub") (encode "a.graphql"),
          nestedLocation ++ [encode "sub", encode "a.graphql"], true⟩] := by
  rw [← join_slashed h (encode "sub")]
  simp only [Target.walk, nestedDirectory, Node.walk_dir]
  rfl

/-- If the path itself is short enough and a name below it makes it too long, collecting stops at
that name. -/
theorem collect_of_long {n : Nat} (hfits : n + 1 ≤ maxPathBytes) (hlong : maxPathBytes < n + 4) :
    collect nestedSchema ⟨["graphql"], [slashed n]⟩ =
      .error (.unreachable (slashed n) (slashed n ++ encode "sub") .tooLong) := by
  have hn : n ≠ 0 := by
    rintro rfl
    revert hlong
    decide
  have hentered : ¬maxPathBytes < (slashed n).length := by
    rw [length_slashed]
    exact Nat.not_lt.2 hfits
  have hsub : maxPathBytes < (slashed n ++ encode "sub").length := by
    rw [List.length_append, length_slashed]
    exact hlong
  simp only [collect, scan, resolve_slashed hfits, walk_slashed hn, List.findSome?_cons, obstacle?,
    Bool.false_eq_true, if_false, if_neg hentered, if_pos hsub]

/-- A name whose extension is a byte that is no text. -/
def foreignName : FileName := encode "a." ++ [0xFF]

/-- A file of that name. -/
def foreignFile : FileSystem where
  root := .dir [(foreignName, .file [])]
  workingDirectory := []

theorem isProper_foreignFile : foreignFile.IsProper where
  root := .dir (List.nodup_singleton _) (by decide +kernel) (by simp [Node.IsProper.file])
  directory := ⟨_, rfl⟩

/-- A schema below a path of the greatest length is not collected: the path of the directory
that holds it has become too long.  A file is collected whose extension is no text, and so is
none of those asked for, once it is mended. -/
theorem collect_at_limits :
    (nestedSchema.IsProper ∧
      nestedSchema.resolve (slashed 4094) = .ok ⟨nestedLocation, nestedDirectory⟩ ∧
      nestedDirectory.at? [encode "sub", encode "a.graphql"] = some (.file []) ∧
      IsMarked ["graphql"] (encode "a.graphql") ∧
      collect nestedSchema ⟨["graphql"], [slashed 4094]⟩ =
        .error (.unreachable (slashed 4094) (slashed 4094 ++ encode "sub") .tooLong)) ∧
    foreignFile.IsProper ∧ Files.extensionOfName foreignName = some [0xFF] ∧
      encode "\uFFFD" ≠ [0xFF] ∧
      collect foreignFile ⟨["\uFFFD"], [encode "."]⟩ = .ok ⟨[Files.slash :: foreignName], 0⟩ ∧
      collect foreignFile ⟨["graphql"], [encode "."]⟩ = .error (.noFiles [encode "."]) :=
  ⟨⟨isProper_nestedSchema, resolve_slashed (by decide), rfl, by decide +kernel,
    collect_of_long (by decide) (by decide)⟩, isProper_foreignFile, by decide +kernel,
    by decide +kernel, by decide +kernel, by decide +kernel⟩

end Limits

end SchemaCatalog.Command
