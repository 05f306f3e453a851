/-
# Definitions that can be read back

The grammar of documents is narrower than that of fragments.  A definition of a fragment is
printed as something that a document may hold exactly if its values are plain, without
variables and without the negative infinity, if it gives no value of an enum a reserved name,
and if it does not leave out what a document demands: an operation of the schema and a place
for a directive.
-/
import SchemaCatalog.Proofs.RereadDefinitions
import SchemaCatalog.Proofs.SoundFragments

namespace SchemaCatalog.Fragment

/-! ## Plain values -/

/-- A value without variables and without the negative infinity. -/
inductive Value.IsPlain : Value → Prop
  | int (i : Int) : IsPlain (.int i)
  | float {b : Binary64} (h : b ≠ .infinite true) : IsPlain (.float b)
  | string (s : String) : IsPlain (.string s)
  | word (n : Name) : IsPlain (.word n)
  | list {vs : List Value} (h : ∀ v ∈ vs, v.IsPlain) : IsPlain (.list vs)
  | object {fs : List (Name × Value)} (h : ∀ f ∈ fs, f.2.IsPlain) : IsPlain (.object fs)

/-- The only number that is not read back is the infinity below. -/
theorem isPlain_float_iff {b : Binary64} : (Value.float b).IsPlain ↔ b ≠ .infinite true :=
  ⟨fun h => by cases h; assumption, .float⟩

/-- A list is plain if its items are. -/
theorem isPlain_list_iff {vs : List Value} : (Value.list vs).IsPlain ↔ ∀ v ∈ vs, v.IsPlain :=
  ⟨fun h => by cases h; assumption, .list⟩

/-- An object is plain if the values of its fields are. -/
theorem isPlain_object_iff {fs : List (Name × Value)} :
    (Value.object fs).IsPlain ↔ ∀ f ∈ fs, f.2.IsPlain :=
  ⟨fun h => by cases h; assumption, .object⟩

/-- Items are read exactly if each of them is. -/
theorem isSome_mapM_iff {α β : Type} {f : α → Option β} {xs : List α} :
    (xs.mapM f).isSome = true ↔ ∀ x ∈ xs, (f x).isSome = true := by
  induction xs with
  | nil => simp
  | cons x xs ih =>
    rw [Rule.mapM_cons_option, List.forall_mem_cons, ← ih]
    cases f x <;> simp

/-- What can be read back of a value. -/
def RereadsPlain (indent : Nat) (v : Value) : Prop :=
  ∀ levels, (v.reread? indent levels).isSome = true ↔ v.IsPlain ∧ v.depth ≤ levels

/-- A value inside another takes one level of those that are left. -/
theorem RereadsPlain.inside {indent : Nat} {v : Value} (h : RereadsPlain indent v) (levels : Nat) :
    (v.rereadInside? indent levels).isSome = true ↔ v.IsPlain ∧ v.depth + 1 ≤ levels := by
  cases levels with
  | zero => simp [Value.rereadInside?]
  | succ inner => exact (h inner).trans (and_congr_right fun _ => Nat.succ_le_succ_iff.symm)

mutual

/-- A value is read back exactly if it is plain and does not nest too deep. -/
theorem rereadsPlain_value (indent : Nat) : ∀ v : Value, RereadsPlain indent v
  | .variable n => fun levels => by
    have hplain : ¬(Value.variable n).IsPlain := nofun
    simp [Value.reread?, hplain]
  | .int i => fun levels => by
    simp [Value.reread?, Value.depth, Value.IsPlain.int i]
  | .float b => fun levels => by
    rw [isPlain_float_iff]
    rcases b with ⟨n, s, e⟩ | ⟨_ | _⟩ <;> simp [Value.reread?, rereadFloat?, Value.depth]
  | .string s => fun levels => by
    simp [Value.reread?, Value.depth, Value.IsPlain.string s]
  | .word n => fun levels => by
    simp [Value.reread?, Value.depth, Value.IsPlain.word n]
  | .list vs => fun levels => by
    rw [Value.reread?, rereadItems?_eq, Option.isSome_map, isSome_mapM_iff, isPlain_list_iff,
      Value.depth, itemsDepth_le_iff, ← forall₂_and]
    exact forall₂_congr fun v hv => (rereadsPlain_items indent vs v hv).inside levels
  | .object fs => fun levels => by
    rw [Value.reread?, rereadFields?_eq, Option.isSome_map, isSome_mapM_iff, isPlain_object_iff,
      Value.depth, fieldsDepth_le_iff, ← forall₂_and]
    refine forall₂_congr fun f hf => ?_
    rw [rereadField?, Option.isSome_map]
    exact (rereadsPlain_fields indent fs f hf).inside levels

/-- What is read back of the items of a list tells whether they are plain. -/
theorem rereadsPlain_items (indent : Nat) :
    ∀ vs : List Value, ∀ v ∈ vs, RereadsPlain indent v
  | [] => by simp
  | w :: vs => by
    rw [List.forall_mem_cons]
    exact ⟨rereadsPlain_value indent w, rereadsPlain_items indent vs⟩

/-- What is read back of the fields of an object tells whether they are plain. -/
theorem rereadsPlain_fields (indent : Nat) :
    ∀ fs : List (Name × Value), ∀ f ∈ fs, RereadsPlain indent f.2
  | [] => by simp
  | (n, w) :: fs => by
    rw [List.forall_mem_cons]
    exact ⟨rereadsPlain_value indent w, rereadsPlain_fields indent fs⟩

end

/-- Values that nest no deeper than a fragment lets them are read back if they are plain. -/
theorem isSome_reread?_iff_isPlain {indent : Nat} {v : Value} (h : v.depth ≤ maxLevels) :
    (v.reread? indent Document.maxLevels).isSome = true ↔ v.IsPlain := by
  refine (rereadsPlain_value indent v _).trans (and_iff_left ?_)
  exact Nat.le_trans h (by decide)

/-! ## Directives and members -/

/-- Values of which each is plain. -/
def ArePlain (vs : List Value) : Prop := ∀ v ∈ vs, v.IsPlain

theorem arePlain_append {vs ws : List Value} :
    ArePlain (vs ++ ws) ↔ ArePlain vs ∧ ArePlain ws := List.forall_mem_append

theorem arePlain_flatMap {α : Type} {f : α → List Value} {xs : List α} :
    ArePlain (xs.flatMap f) ↔ ∀ x ∈ xs, ArePlain (f x) := List.forall_mem_flatMap

/-- Directives are read back if the values that they are given are plain. -/
theorem isSome_reread?_directives (indent : Nat) {ds : List Directive}
    (h : AreShallow (givenValues ds)) :
    (ds.mapM (Directive.reread? indent)).isSome = true ↔ ArePlain (givenValues ds) := by
  rw [isSome_mapM_iff, givenValues, arePlain_flatMap]
  refine forall₂_congr fun d hd => ?_
  rw [Directive.reread?, Option.isSome_map, isSome_mapM_iff, ArePlain, List.forall_mem_map]
  refine forall₂_congr fun f hf => ?_
  rw [rereadField?, Option.isSome_map]
  exact isSome_reread?_iff_isPlain (h _ (List.mem_flatMap.2 ⟨d, hd, List.mem_map_of_mem hf⟩))

/-- A reference is read back unless it is too deep. -/
theorem isSome_rereadType? {t : TypeRef} (h : t.depth ≤ maxLevels) :
    (rereadType? Document.maxLevels t).isSome = true := by
  rw [rereadType?, if_pos (Nat.le_trans h (by decide))]
  rfl

/-- A default is read back if it is plain, and so is a missing one. -/
theorem isSome_reread?_default {indent : Nat} {d : Option Value} (h : AreShallow d.toList) :
    (rereadDefault? indent d).isSome = true ↔ ArePlain d.toList := by
  cases d with
  | none => exact iff_of_true rfl nofun
  | some v =>
    have hv := h v (List.mem_singleton_self v)
    rw [rereadDefault?, Option.isSome_map, isSome_reread?_iff_isPlain hv]
    exact List.forall_mem_singleton.symm

/-- What is read in two parts is read exactly if both parts are. -/
theorem isSome_bind_iff {α β : Type} {o : Option α} {f : α → Option β} {p : Prop}
    (h : ∀ a, o = some a → ((f a).isSome = true ↔ p)) :
    (o.bind f).isSome = true ↔ o.isSome = true ∧ p := by
  cases ho : o with
  | none => simp
  | some a => simpa using h a ho

/-- An argument is read back if its values are plain. -/
theorem isSome_reread?_inputValue {indent : Nat} {v : InputValue} (h : AreShallow v.literals)
    (htype : v.type.depth ≤ maxLevels) :
    (v.reread? indent).isSome = true ↔ ArePlain v.literals := by
  obtain ⟨hdefault, hdirectives⟩ := areShallow_append.1 h
  rw [InputValue.reread?, isSome_bind_iff fun t _ => isSome_bind_iff fun d _ => by
    rw [Option.isSome_map, isSome_reread?_directives _ hdirectives],
    isSome_reread?_default hdefault, InputValue.literals, arePlain_append]
  exact and_iff_right (isSome_rereadType? htype)

/-- Arguments are read back if the values of all of them are plain. -/
theorem isSome_reread?_inputValues {indent : Nat} {vs : List InputValue}
    (h : AreShallow (vs.flatMap InputValue.literals))
    (htypes : ∀ t ∈ vs.map InputValue.type, t.depth ≤ maxLevels) :
    (vs.mapM (InputValue.reread? indent)).isSome = true ↔
      ArePlain (vs.flatMap InputValue.literals) := by
  rw [isSome_mapM_iff, arePlain_flatMap]
  exact forall₂_congr fun v hv => isSome_reread?_inputValue (areShallow_flatMap.1 h v hv)
    (htypes _ (List.mem_map_of_mem hv))

/-- A field is read back if its values and those of its arguments are plain. -/
theorem isSome_reread?_field {indent : Nat} {f : Field} (h : AreShallow f.literals)
    (htypes : ∀ t ∈ f.references, t.depth ≤ maxLevels) :
    (f.reread? indent).isSome = true ↔ ArePlain f.literals := by
  obtain ⟨harguments, hdirectives⟩ := areShallow_append.1 h
  obtain ⟨htype, htypes⟩ := List.forall_mem_cons.1 htypes
  rw [Field.reread?, isSome_bind_iff fun args _ => isSome_bind_iff fun t _ => by
    rw [Option.isSome_map, isSome_reread?_directives _ hdirectives],
    isSome_reread?_inputValues harguments htypes, Field.literals, arePlain_append]
  exact and_congr_right fun _ => and_iff_right (isSome_rereadType? htype)

/-! ## Definitions -/

/-- Members between braces are read exactly if each of them is. -/
theorem isSome_rereadBlock? {α β : Type} {read? : β → Option α} {xs : List β} :
    (rereadBlock? read? xs).isSome = true ↔ ∀ x ∈ xs, (read? x).isSome = true := by
  cases xs with
  | nil => simp [rereadBlock?]
  | cons x xs => rw [rereadBlock?, if_neg (by simp), Option.isSome_map, isSome_mapM_iff]

/-- A content gives no value of an enum a name that is reserved. -/
def Content.AvoidsReserved : Content → Prop
  | .enum vs => ∀ v ∈ vs, v.name.text ∉ Document.reservedValues
  | _ => True

/-- What a definition leaves out that a document demands. -/
def Definition.IsComplete : Definition → Prop
  | .schema s => ∃ o, (s.root o).isSome = true
  | .type t => t.content.AvoidsReserved
  | .extension e => e.content.AvoidsReserved
  | .directive d => d.locations ≠ []

/-- A definition that a document may hold. -/
structure Definition.IsPlain (d : Definition) : Prop where
  literals : ArePlain d.literals
  complete : d.IsComplete

/-- Fields are read alike in objects and in interfaces. -/
theorem isSome_rereadFieldsBody? {ds : List Directive} {fs : List Field}
    (hds : AreShallow (givenValues ds)) (hfs : AreShallow (fs.flatMap Field.literals))
    (htypes : ∀ t ∈ fs.flatMap Field.references, t.depth ≤ maxLevels) (is : List Name)
    (make : List Name → List Document.Field → Document.Content) :
    (rereadBody?.rereadFieldsBody? ds is fs make).isSome = true ↔
      ArePlain (givenValues ds ++ fs.flatMap Field.literals) := by
  rw [rereadBody?.rereadFieldsBody?, isSome_bind_iff fun _ _ => by
    rw [Option.isSome_map, isSome_rereadBlock?], isSome_reread?_directives 0 hds, arePlain_append,
    arePlain_flatMap]
  refine and_congr_right fun _ => forall₂_congr fun f hf => ?_
  exact isSome_reread?_field (areShallow_flatMap.1 hfs f hf)
    (List.forall_mem_flatMap.1 htypes f hf)

/-- What stands behind the name of a type is read back if its values are plain and no value of an
enum is a reserved word. -/
theorem isSome_reread?_body {ds : List Directive} {c : Content} (h : IsSoundBody (ds, c)) :
    (rereadBody? ds c).isSome = true ↔
      ArePlain (givenValues ds ++ c.literals) ∧ c.AvoidsReserved := by
  obtain ⟨hvalues, htypes⟩ := h
  obtain ⟨hds, hc⟩ := areShallow_append.1 hvalues
  have hdirectives := isSome_reread?_directives 0 hds
  cases c with
  | enum vs =>
    rw [rereadBody?, isSome_bind_iff fun _ _ => by
      rw [Option.isSome_map, isSome_rereadBlock?], hdirectives, arePlain_append, and_assoc]
    refine and_congr_right fun _ => ?_
    rw [Content.literals, arePlain_flatMap, Content.AvoidsReserved, ← forall₂_and]
    refine forall₂_congr fun v hv => ?_
    have hv := isSome_reread?_directives memberIndent (areShallow_flatMap.1 hc v hv)
    rw [EnumValue.reread?]
    split
    · next hreserved => simp [hreserved]
    · next hreserved => rw [Option.isSome_map, hv, and_iff_left hreserved]
  | inputObject fs =>
    rw [rereadBody?, isSome_bind_iff fun _ _ => by
      rw [Option.isSome_map, isSome_rereadBlock?], hdirectives, arePlain_append,
      and_iff_left (show (Content.inputObject fs).AvoidsReserved from trivial), Content.literals,
      arePlain_flatMap]
    refine and_congr_right fun _ => forall₂_congr fun v hv => ?_
    exact isSome_reread?_inputValue (areShallow_flatMap.1 hc v hv)
      (htypes _ (List.mem_map_of_mem hv))
  | interface is fs =>
    exact (isSome_rereadFieldsBody? hds hc htypes is _).trans (and_iff_left trivial).symm
  | object is fs =>
    exact (isSome_rereadFieldsBody? hds hc htypes is _).trans (and_iff_left trivial).symm
  | scalar =>
    rw [rereadBody?, Option.isSome_map, hdirectives, arePlain_append]
    exact ⟨fun h => ⟨⟨h, List.forall_mem_nil _⟩, trivial⟩, fun h => h.1.1⟩
  | union ms =>
    rw [rereadBody?, Option.isSome_map, hdirectives, arePlain_append]
    exact ⟨fun h => ⟨⟨h, List.forall_mem_nil _⟩, trivial⟩, fun h => h.1.1⟩

/-- Items that are there are read as items that are there. -/
theorem isEmpty_of_mapM {α β : Type} {read? : β → Option α} {xs : List β} {ys : List α}
    (h : xs.mapM read? = some ys) : ys.isEmpty = xs.isEmpty := by
  cases xs with
  | nil =>
    cases h
    rfl
  | cons x xs =>
    rw [Rule.mapM_cons_option, Option.bind_eq_some_iff] at h
    obtain ⟨y, -, h⟩ := h
    obtain ⟨zs, -, rfl⟩ := Option.map_eq_some_iff.1 h
    rfl

/-- Where there are no members no braces are printed, and none are read back. -/
theorem isSome_of_rereadBlock? {α β : Type} {read? : β → Option α} {xs : List β}
    {ys : Option (List α)} (h : rereadBlock? read? xs = some ys) : ys.isSome = !xs.isEmpty := by
  rw [rereadBlock?] at h
  split at h
  · next hempty =>
    cases h
    rw [hempty]
    rfl
  · next hempty =>
    obtain ⟨zs, -, rfl⟩ := Option.map_eq_some_iff.1 h
    simp [hempty]

theorem isSome_declared? (ns : List Name) : (declared? ns).isSome = !ns.isEmpty := by
  cases ns <;> rfl

/-- What adds anything has a body that is written. -/
theorem isWritten_of_reread? {ds : List Directive} {c : Content} {b : Document.Body}
    (h : rereadBody? ds c = some b) (hadds : addsAnything ds c = true) : b.isWritten = true := by
  unfold addsAnything at hadds
  cases c with
  | enum vs =>
    simp only [rereadBody?, Option.bind_eq_some_iff, Option.map_eq_some_iff] at h
    obtain ⟨ds', hds, vs', hvs, rfl⟩ := h
    simpa [isEmpty_of_mapM hds, isSome_of_rereadBlock? hvs] using hadds
  | inputObject fs =>
    simp only [rereadBody?, Option.bind_eq_some_iff, Option.map_eq_some_iff] at h
    obtain ⟨ds', hds, fs', hfs, rfl⟩ := h
    simpa [isEmpty_of_mapM hds, isSome_of_rereadBlock? hfs] using hadds
  | interface is fs =>
    simp only [rereadBody?, rereadBody?.rereadFieldsBody?, Option.bind_eq_some_iff,
      Option.map_eq_some_iff] at h
    obtain ⟨ds', hds, fs', hfs, rfl⟩ := h
    have hadds : (!ds.isEmpty || !fs.isEmpty) = true := hadds
    rw [isEmpty_of_mapM hds, isSome_of_rereadBlock? hfs, Bool.or_assoc, hadds, Bool.or_true]
  | object is fs =>
    simp only [rereadBody?, rereadBody?.rereadFieldsBody?, Option.bind_eq_some_iff,
      Option.map_eq_some_iff] at h
    obtain ⟨ds', hds, fs', hfs, rfl⟩ := h
    have hadds : (!ds.isEmpty || (!is.isEmpty || !fs.isEmpty)) = true := hadds
    rwa [isEmpty_of_mapM hds, isSome_of_rereadBlock? hfs, isSome_declared?, Bool.or_assoc,
      Bool.or_left_comm]
  | scalar =>
    simp only [rereadBody?, Option.map_eq_some_iff] at h
    obtain ⟨ds', hds, rfl⟩ := h
    simpa [isEmpty_of_mapM hds] using hadds
  | union ms =>
    simp only [rereadBody?, Option.map_eq_some_iff] at h
    obtain ⟨ds', hds, rfl⟩ := h
    simpa [isEmpty_of_mapM hds, isSome_declared?] using hadds

theorem isEmpty_roots_iff (s : SchemaDefinition) :
    s.roots.isEmpty = false ↔ ∃ o, (s.root o).isSome = true := by
  constructor
  · intro h
    obtain ⟨r, rs, hroots⟩ := List.exists_cons_of_ne_nil (List.isEmpty_eq_false_iff.1 h)
    have hr : r ∈ s.roots := hroots ▸ List.mem_cons_self
    obtain ⟨o, -, hroot⟩ := List.mem_filterMap.1 hr
    obtain ⟨n, hn, -⟩ := Option.map_eq_some_iff.1 hroot
    exact ⟨o, by simp [hn]⟩
  · rintro ⟨o, ho⟩
    obtain ⟨n, hn⟩ := Option.isSome_iff_exists.1 ho
    refine List.isEmpty_eq_false_iff.2 (List.ne_nil_of_mem (a := (o, n)) ?_)
    refine List.mem_filterMap.2 ⟨o, ?_, by rw [hn]; rfl⟩
    cases o <;> simp

/-- **Plain definitions.**  A sound definition is read back exactly if it is plain. -/
theorem isSome_reread?_iff {d : Definition} (h : d.IsSound) :
    d.reread?.isSome = true ↔ d.IsPlain := by
  have hsplit : d.IsPlain ↔ ArePlain d.literals ∧ d.IsComplete :=
    ⟨fun h => ⟨h.literals, h.complete⟩, fun h => ⟨h.1, h.2⟩⟩
  rw [hsplit]
  cases d with
  | schema s =>
    rw [Definition.reread?, SchemaDefinition.reread?, Definition.IsComplete, ← isEmpty_roots_iff]
    cases s.roots.isEmpty
    · rw [if_neg (by simp), Option.isSome_map, and_iff_left rfl]
      exact isSome_reread?_directives _ h.literals
    · simp
  | type t =>
    rw [Definition.reread?, TypeDefinition.reread?, Option.isSome_map]
    exact isSome_reread?_body ⟨h.literals, h.references⟩
  | extension e =>
    -- the question whether anything is added is no condition: a sound extension adds something
    rw [Definition.reread?, TypeExtension.reread?, isSome_bind_iff (p := True), and_true]
    · exact isSome_reread?_body ⟨h.literals, h.references⟩
    · intro b hb
      rw [isWritten_of_reread? hb (h.adds e rfl)]
      exact iff_of_true rfl trivial
  | directive d =>
    have hplaces : (d.locations.mapM rereadPlace?).isSome = true := by
      refine isSome_mapM_iff.2 fun n hn => ?_
      rw [rereadPlace?, if_pos (h.places d rfl n hn)]
      rfl
    have hend : ∀ make : List Name → Document.Definition,
        (if d.locations.isEmpty then none
          else (d.locations.mapM rereadPlace?).map make).isSome = true ↔ d.locations ≠ [] := by
      intro make
      split
      · next hempty => exact iff_of_false Bool.false_ne_true (· (List.isEmpty_iff.1 hempty))
      · next hempty =>
        rw [Option.isSome_map]
        exact iff_of_true hplaces fun hnil => hempty (List.isEmpty_iff.2 hnil)
    rw [Definition.reread?, DirectiveDefinition.reread?, isSome_bind_iff fun _ _ => hend _]
    exact and_congr_left' (isSome_reread?_inputValues h.literals h.references)

end SchemaCatalog.Fragment
