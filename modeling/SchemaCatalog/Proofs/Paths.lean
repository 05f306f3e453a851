/-
# Where paths lead

A path that leads to a file ends in the name of the file, and the path of a location without
detours leads back to it.  What marks a file is what stands behind the last dot of its name.
-/
import SchemaCatalog.Proofs.FileTrees

namespace SchemaCatalog.Files

/-! ## The names of a path -/

theorem pieces_eq_splitOn {α : Type} [DecidableEq α] (mark : α) (cs : List α) :
    Text.pieces mark cs = cs.splitOn mark := by
  induction cs with
  | nil => rw [Text.pieces, List.splitOn_nil]
  | cons c cs ih =>
    rw [Text.pieces, List.splitOn_cons_eq_if_modifyHead, ih]
    simp only [beq_iff_eq]
    split
    · rfl
    · obtain ⟨p, ps, h⟩ := List.exists_cons_of_ne_nil (List.splitOn_ne_nil mark cs)
      rw [h]
      rfl

/-- A slash separates the names before it from those behind it. -/
theorem components_append_slash (p q : Path) :
    components (p ++ slash :: q) = components p ++ components q := by
  simp [components, pieces_eq_splitOn, List.splitOn_append_cons_self]

theorem components_of_not_slash {name : FileName} (h : slash ∉ name) :
    components name = [name] := by
  simp [components, pieces_eq_splitOn, List.splitOn_eq_singleton h]

/-- Names that are put together with slashes are the names of the path. -/
theorem components_intercalate {names : List FileName} (hne : names ≠ [])
    (h : ∀ name ∈ names, slash ∉ name) : components ([slash].intercalate names) = names := by
  rw [components, pieces_eq_splitOn]
  exact List.splitOn_intercalate slash h hne

/-- The names of an absolute path are those that it was made of, behind an empty one. -/
theorem components_absolutePath {names : List FileName} (hne : names ≠ [])
    (h : ∀ name ∈ names, slash ∉ name) : components (absolutePath names) = [] :: names := by
  have := components_append_slash [] ([slash].intercalate names)
  rw [List.nil_append, components_of_not_slash List.not_mem_nil] at this
  rw [absolutePath, this, components_intercalate hne h, List.singleton_append]

theorem isStep_of_isName {name : FileName} (h : IsName name) : isStep name = true := by
  simp [isStep, h.ne_nil, h.ne_dot]

/-- The path of an entry has the name of the entry behind the other names. -/
theorem filter_components_join (path : Path) {name : FileName} (h : IsName name) :
    (components (join path name)).filter isStep =
      (components path).filter isStep ++ [name] := by
  have hname : (components name).filter isStep = [name] := by
    rw [components_of_not_slash h.not_slash, List.filter_singleton, isStep_of_isName h, cond_true]
  rw [join]
  split
  · next hslash =>
    obtain ⟨p, rfl⟩ : ∃ p, path = p ++ [slash] := by
      rwa [beq_iff_eq, List.getLast?_eq_some_iff] at hslash
    have hempty : (components []).filter isStep = [] := by decide
    rw [List.append_assoc, List.singleton_append, components_append_slash,
      components_append_slash p [], List.filter_append, List.filter_append, hname, hempty,
      List.append_nil]
  · rw [components_append_slash, List.filter_append, hname]

/-- A path that names are joined to takes its own steps, and then one to each name. -/
theorem filter_components_spell (path : Path) {names : List FileName}
    (h : ∀ name ∈ names, IsName name) :
    (components (spell path names)).filter isStep = (components path).filter isStep ++ names := by
  induction names generalizing path with
  | nil => simp
  | cons name names ih =>
    rw [List.forall_mem_cons] at h
    rw [spell_cons, ih _ h.2, filter_components_join path h.1, List.append_assoc]
    rfl

/-! ## Extensions -/

/-- From the end of a name, bytes without a dot are all passed before what stands in front of
them. -/
theorem reverse_takeWhile_append (stem : FileName) {behind : List UInt8} (h : dot ∉ behind) :
    ((stem.reverse ++ behind).reverse.takeWhile (· != dot)).reverse =
      (stem.takeWhile (· != dot)).reverse ++ behind := by
  have hall : ∀ b ∈ behind.reverse, (b != dot) = true := by
    intro b hb
    rw [bne_iff_ne]
    rintro rfl
    exact h (List.mem_reverse.1 hb)
  rw [List.reverse_append, List.reverse_reverse, List.takeWhile_append_of_pos hall,
    List.reverse_append, List.reverse_reverse]

/-- A name has no dot, or a last one. -/
theorem not_mem_or_exists_append (name : FileName) :
    dot ∉ name ∨ ∃ stem behind, name = stem ++ dot :: behind ∧ dot ∉ behind := by
  induction name with
  | nil => exact Or.inl List.not_mem_nil
  | cons b name ih =>
    rcases ih with h | ⟨stem, behind, rfl, h⟩
    · rcases eq_or_ne b dot with rfl | hb
      · exact Or.inr ⟨[], name, rfl, h⟩
      · exact Or.inl (List.not_mem_cons_of_ne_of_not_mem hb.symm h)
    · exact Or.inr ⟨b :: stem, behind, rfl, h⟩

/-- The extension of a name is what stands behind its last dot, if that is not its first
byte. -/
theorem extensionOfName_eq_some_iff {name : FileName} {e : List UInt8} :
    extensionOfName name = some e ↔ ∃ stem, stem ≠ [] ∧ name = stem ++ dot :: e ∧ dot ∉ e := by
  have hlast {stem behind : List UInt8} (h : dot ∉ behind) :
      ((stem ++ dot :: behind).reverse.takeWhile (· != dot)).reverse = behind := by
    have := reverse_takeWhile_append (dot :: stem.reverse) h
    rwa [List.reverse_cons, List.reverse_reverse, List.append_assoc,
      List.takeWhile_cons_of_neg (by simp)] at this
  rw [extensionOfName]
  constructor
  · intro h
    rcases not_mem_or_exists_append name with hnot | ⟨stem, behind, rfl, hbehind⟩
    · have hall := reverse_takeWhile_append [] hnot
      rw [List.reverse_nil, List.nil_append] at hall
      rw [hall] at h
      have hshort : ¬name.length + 1 < name.length := by omega
      cases (if_neg hshort).symm.trans h
    · rw [hlast hbehind, List.length_append, List.length_cons] at h
      split at h
      · next hlt =>
        cases h
        refine ⟨stem, ?_, rfl, hbehind⟩
        rintro rfl
        simp at hlt
      · cases h
  · rintro ⟨stem, hstem, rfl, he⟩
    have hpos := List.length_pos_iff.2 hstem
    rw [hlast he, if_pos]
    rw [List.length_append, List.length_cons]
    omega

/-! ## Following a path -/

section Following

variable {root : Node}

/-- Names without detours lead to the location that they make up. -/
theorem follow_names {location names : List FileName} {n : Node}
    (h : root.at? (location ++ names) = some n) (hnames : ∀ name ∈ names, IsName name) :
    follow root location names = .ok ⟨location ++ names, n⟩ := by
  induction names generalizing location with
  | nil =>
    rw [List.append_nil] at h ⊢
    rw [follow, h]
  | cons name names ih =>
    rw [List.forall_mem_cons] at hnames
    obtain ⟨hname, hnames⟩ := hnames
    obtain ⟨es, hes⟩ := Node.exists_dir_of_at?_append h
    have hentry : (es.lookup name).isSome := by
      rw [Node.at?_append, hes, Option.bind_some, Node.at?_dir_cons,
        Option.bind_eq_some_iff] at h
      obtain ⟨m, hm, -⟩ := h
      rw [hm, Option.isSome_some]
    have hplain : ¬(name = [] ∨ name = [dot]) := not_or.2 ⟨hname.ne_nil, hname.ne_dot⟩
    rw [List.append_cons] at h
    simp only [follow, hes, Bool.or_eq_true, decide_eq_true_eq, if_neg hplain,
      if_neg hname.ne_dots, if_neg (Nat.not_lt.2 hname.length_le), if_pos hentry, ih h hnames,
      List.append_assoc, List.singleton_append]

/-- The target of a path is what lies at its location. -/
theorem at?_of_follow {location names : List FileName} {t : Target}
    (h : follow root location names = .ok t) : root.at? t.location = some t.node := by
  fun_induction follow root location names with
  | case1 location n hn =>
    cases h
    exact hn
  | case5 | case6 | case8 => simp_all
  | _ => cases h

/-- The directory above a directory is a directory. -/
theorem exists_dir_dropLast {location : List FileName} {es : List (FileName × Node)}
    (h : root.at? location = some (.dir es)) :
    ∃ es, root.at? location.dropLast = some (.dir es) := by
  rcases List.eq_nil_or_concat location with rfl | ⟨location, name, rfl⟩
  · exact ⟨es, h⟩
  · rw [List.concat_eq_append] at h ⊢
    rw [List.dropLast_concat]
    exact Node.exists_dir_of_at?_append h

theorem getLast?_filter_cons {name last : FileName} {names : List FileName}
    (h : (names.filter isStep).getLast? = some last) :
    ((name :: names).filter isStep).getLast? = some last := by
  rw [← List.singleton_append, List.filter_append, List.getLast?_append, h, Option.some_or]

/-- A path that leads to a file ends in the name of the file. -/
theorem getLast?_of_follow {location names : List FileName} {t : Target}
    (h : follow root location names = .ok t) (hfile : t.node.isFile = true)
    (hdir : ∃ es, root.at? location = some (.dir es)) :
    ∃ name, (names.filter isStep).getLast? = some name ∧ name ≠ [dot, dot] ∧
      t.location.getLast? = some name := by
  fun_induction follow root location names with
  | case1 location n hn =>
    obtain ⟨es, hes⟩ := hdir
    rw [hn, Option.some.injEq] at hes
    cases h
    rw [hes] at hfile
    cases hfile
  | case5 location name names es hes hstay ih =>
    have hskip : isStep name = false := by
      rw [Bool.or_eq_true, decide_eq_true_eq, decide_eq_true_eq] at hstay
      rcases hstay with rfl | rfl <;> rfl
    rw [List.filter_cons_of_neg (by rw [hskip]; exact Bool.false_ne_true)]
    exact ih h hdir
  | case6 location names es hes hstay ih =>
    obtain ⟨name, hlast, hne, hname⟩ := ih h (exists_dir_dropLast hes)
    exact ⟨name, getLast?_filter_cons hlast, hne, hname⟩
  | case8 location name names es hes hstay hup hsize hentry ih =>
    obtain ⟨m, hm⟩ := Option.isSome_iff_exists.1 hentry
    have hat : root.at? (location ++ [name]) = some m := by
      rw [Node.at?_append, hes, Option.bind_some, Node.at?_dir_cons, hm, Option.bind_some,
        Node.at?_nil]
    cases m with
    | dir es' =>
      obtain ⟨last, hlast, hne, hname⟩ := ih h ⟨es', hat⟩
      exact ⟨last, getLast?_filter_cons hlast, hne, hname⟩
    | file bytes =>
      -- nothing is passed behind a file
      cases names with
      | nil =>
        rw [follow, hat] at h
        cases h
        rw [Bool.or_eq_true, decide_eq_true_eq, decide_eq_true_eq, not_or] at hstay
        refine ⟨name, ?_, hup, List.getLast?_concat⟩
        rw [List.filter_singleton, isStep, decide_eq_true hstay.1, decide_eq_true hstay.2]
        rfl
      | cons name' names =>
        rw [follow, hat] at h
        cases h
  | _ => cases h

end Following

namespace FileSystem

variable {fs : FileSystem}

theorem IsProper.exists_root (hfs : fs.IsProper) : ∃ es, fs.root = .dir es := by
  obtain ⟨es, hes⟩ := hfs.directory
  cases hroot : fs.root with
  | dir es' => exact ⟨es', rfl⟩
  | file bytes =>
    rw [hroot] at hes
    cases hlocation : fs.workingDirectory <;> simp [hlocation] at hes

/-- A path is followed from a directory, the top or the working directory. -/
theorem exists_follow_of_resolve (hfs : fs.IsProper) {path : Path} {t : Target}
    (h : fs.resolve path = .ok t) :
    ∃ location, (∃ es, fs.root.at? location = some (.dir es)) ∧
      follow fs.root location (components path) = .ok t := by
  obtain ⟨es, hroot⟩ := hfs.exists_root
  rw [resolve] at h
  split at h
  · cases h
  · split at h
    · cases h
    · split at h
      · cases h
      · split at h
        · exact ⟨[], ⟨es, by rw [Node.at?_nil, hroot]⟩, h⟩
        · exact ⟨_, hfs.directory, h⟩

/-- The target of a path is what lies at its location. -/
theorem at?_of_resolve (hfs : fs.IsProper) {path : Path} {t : Target}
    (h : fs.resolve path = .ok t) : fs.root.at? t.location = some t.node := by
  obtain ⟨location, -, hfollow⟩ := exists_follow_of_resolve hfs h
  exact at?_of_follow hfollow

/-- What lies below the target of a path lies at its location, and names lead there. -/
theorem at?_append_of_resolve (hfs : fs.IsProper) {path : Path} {t : Target}
    (h : fs.resolve path = .ok t) {names : List FileName} {n : Node}
    (hn : t.node.at? names = some n) : fs.root.at? (t.location ++ names) = some n := by
  rw [Node.at?_append, at?_of_resolve hfs h, Option.bind_some, hn]

/-- The path of a file that is found below the target of a path ends in the name of the file. -/
theorem fileName?_spell (hfs : fs.IsProper) {path : Path} {t : Target}
    (h : fs.resolve path = .ok t) {names : List FileName} {bytes : List UInt8}
    (hn : t.node.at? names = some (.file bytes)) :
    ∃ name, fileName? (spell path names) = some name ∧
      (t.location ++ names).getLast? = some name := by
  obtain ⟨location, hdir, hfollow⟩ := exists_follow_of_resolve hfs h
  have hnames := ((hfs.root.at? (at?_of_resolve hfs h)).1.at? hn).2
  rw [fileName?, filter_components_spell path hnames]
  rcases List.eq_nil_or_concat names with rfl | ⟨names, name, rfl⟩
  · rw [Node.at?_nil, Option.some.injEq] at hn
    obtain ⟨name, hlast, hne, hname⟩ := getLast?_of_follow hfollow (by rw [hn]; rfl) hdir
    rw [List.append_nil, List.append_nil, hlast]
    exact ⟨name, if_neg hne, hname⟩
  · rw [List.concat_eq_append, ← List.append_assoc, ← List.append_assoc, List.getLast?_concat,
      List.getLast?_concat]
    exact ⟨name, if_neg (hnames name (by simp)).ne_dots, rfl⟩

/-! ## Paths without detours -/

/-- A path that the file system accepts is followed from the top or from the working directory. -/
theorem resolve_eq {path : Path} (hnul : 0 ∉ path) (hne : path ≠ [])
    (hsize : path.length ≤ maxPathBytes) :
    fs.resolve path = if isAbsolute path then follow fs.root [] (components path)
      else follow fs.root fs.workingDirectory (components path) := by
  rw [resolve, if_neg (by simpa using hnul), if_neg hne, if_neg (Nat.not_lt.2 hsize)]

theorem not_nul_of_isName {names : List FileName} (h : ∀ name ∈ names, IsName name) :
    0 ∉ [slash].intercalate names := by
  induction names with
  | nil => simp
  | cons name names ih =>
    rw [List.forall_mem_cons] at h
    cases names with
    | nil => simpa using h.1.not_nul
    | cons name' names =>
      have hslash : (0 : UInt8) ∉ [slash] := by decide
      rw [List.intercalate_cons_cons, List.mem_append, List.mem_append]
      exact not_or.2 ⟨not_or.2 ⟨h.1.not_nul, hslash⟩, ih h.2⟩

/-- The absolute path of a file leads back to it, unless it is too long. -/
theorem resolve_absolutePath (hfs : fs.IsProper) {location : List FileName} {bytes : List UInt8}
    (h : fs.root.at? location = some (.file bytes))
    (hsize : (absolutePath location).length ≤ maxPathBytes) :
    fs.resolve (absolutePath location) = .ok ⟨location, .file bytes⟩ := by
  have hnames := (hfs.root.at? h).2
  obtain ⟨es, hes⟩ := hfs.exists_root
  have hne : location ≠ [] := by
    rintro rfl
    rw [hes] at h
    cases h
  have hnul : 0 ∉ absolutePath location :=
    List.not_mem_cons_of_ne_of_not_mem (by decide) (not_nul_of_isName hnames)
  have habsolute : isAbsolute (absolutePath location) = true := rfl
  rw [resolve_eq hnul (List.cons_ne_nil _ _) hsize, if_pos habsolute,
    components_absolutePath hne fun name hname => (hnames name hname).not_slash, follow,
    Node.at?_nil, hes]
  rw [hes] at h
  exact follow_names h hnames

end FileSystem

end SchemaCatalog.Files
