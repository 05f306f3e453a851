/-
# Feeding rules

What a rule makes of lexemes depends on their kinds, white space left aside, and not on
their texts.  So a rule can be fed with kinds, and a sequence of kinds that is put
together from parts is read part by part.
-/
import SchemaCatalog.Rule

namespace SchemaCatalog

open Lexeme (Kind)

/-- The lexeme that a mark is. -/
abbrev Mark.lexeme (m : Mark) : Kind := .token (.mark m)

/-- The lexeme that a name is. -/
abbrev Name.lexeme (n : Name) : Kind := .token (.name n)

/-- Lexemes with commas between them. -/
abbrev commaSeparated (kss : List (List Kind)) : List Kind := [Kind.comma].intercalate kss

/-- The kinds of lexemes, white space left aside. -/
def kindsOf (ls : List Lexeme) : List Kind := (ls.map Lexeme.kind).filter (· ≠ .blank)

/-- Whether a kind is that of a lexeme which the language does not have. -/
def isFlawKind : Kind → Bool
  | .flaw _ => true
  | _ => false

/-- Whether a kind is that of a lexeme which the grammar sees. -/
def isTokenKind : Kind → Bool
  | .token _ => true
  | _ => false

theorem kindsOf_cons (l : Lexeme) (ls : List Lexeme) :
    kindsOf (l :: ls) = if l.kind = .blank then kindsOf ls else l.kind :: kindsOf ls := by
  by_cases h : l.kind = .blank <;> simp [kindsOf, h]

/-- The kinds of lexemes in a row are those of each part. -/
theorem kindsOf_append (ls ms : List Lexeme) : kindsOf (ls ++ ms) = kindsOf ls ++ kindsOf ms := by
  simp [kindsOf]

namespace Rule

variable {ε α β : Type}

/-! ## Running on kinds -/

/-- The kinds from the next token or stray lexeme on, or `none` if a flaw comes before
it. -/
def settleKinds : List Kind → Option (List Kind)
  | [] => some []
  | .blank :: ks => settleKinds ks
  | .comma :: ks => settleKinds ks
  | .token t :: ks => some (.token t :: ks)
  | .stray message :: ks => some (.stray message :: ks)
  | .flaw _ :: _ => none

/-- The token at the head of some kinds. -/
def headKind : List Kind → Option Token
  | .token t :: _ => some t
  | _ => none

/-- The token or comma that comes next, what is no token left aside. -/
def kindPast : List Kind → Option Token
  | .token t :: _ => some t
  | .blank :: ks => kindPast ks
  | .flaw _ :: ks => kindPast ks
  | .stray _ :: ks => kindPast ks
  | _ => none

/-- Runs a rule on kinds whose first one is that of the current token. -/
def runKinds : Rule ε α → List Kind → Option (α × List Kind)
  | done a, ks => some (a, ks)
  | fail _, _ => none
  | look k, ks => (k (headKind ks)).runKinds ks
  | lookPast k, ks => (k (kindPast ks.tail)).runKinds ks
  | take k, ks => (settleKinds ks.tail).bind k.runKinds

/-- Runs a rule from the next token on. -/
def feed (r : Rule ε α) (ks : List Kind) : Option (α × List Kind) :=
  (settleKinds ks).bind r.runKinds

/-- What a rule leaves behind that reads up to a point, if it comes to a result. -/
def leaving (rest : List Kind) (o : Option α) : Option (α × List Kind) :=
  o.bind fun a => (settleKinds rest).map (Prod.mk a)

/-! ## Lexemes and their kinds -/

/-- Whether the first lexeme, if there is one, is a token or stray. -/
def IsSettled : List Lexeme → Prop
  | [] => True
  | l :: _ => (∃ t, l.kind = .token t) ∨ ∃ message, l.kind = .stray message

/-- Settling lexemes and settling their kinds go hand in hand. -/
theorem settle_kinds (ls : List Lexeme) :
    match (settle ls : Except (Failure ε) (List Lexeme)) with
    | .ok rest => IsSettled rest ∧ settleKinds (kindsOf ls) = some (kindsOf rest)
    | .error _ => settleKinds (kindsOf ls) = none := by
  induction ls with
  | nil => exact ⟨trivial, rfl⟩
  | cons l ls ih =>
    rw [settle.eq_def, kindsOf_cons]
    cases h : l.kind with
    | blank => simpa [h] using ih
    | comma => simpa [h, settleKinds] using ih
    | token t => simp [h, settleKinds, kindsOf_cons, IsSettled]
    | stray m => simp [h, settleKinds, kindsOf_cons, IsSettled]
    | flaw m => simp [h, settleKinds]

/-- The first lexeme of settled ones is not white space. -/
theorem kindsOf_cons_of_isSettled {l : Lexeme} {ls : List Lexeme} (h : IsSettled (l :: ls)) :
    kindsOf (l :: ls) = l.kind :: kindsOf ls := by
  rw [kindsOf_cons, if_neg]
  rcases h with ⟨t, h⟩ | ⟨m, h⟩ <;> simp [h]

/-- The first kind of settled lexemes is the token that comes next. -/
theorem headKind_kindsOf {ls : List Lexeme} (h : IsSettled ls) :
    headKind (kindsOf ls) = headToken ls := by
  cases ls with
  | nil => rfl
  | cons l ls =>
    rw [kindsOf_cons_of_isSettled h, headToken, Lexeme.token?]
    cases l.kind <;> rfl

/-- The token behind the next one is found among the kinds as it is among the lexemes. -/
theorem kindPast_kindsOf (ls : List Lexeme) : kindPast (kindsOf ls) = tokenPast ls := by
  induction ls with
  | nil => rfl
  | cons l ls ih =>
    rw [kindsOf_cons, tokenPast.eq_def]
    cases h : l.kind <;> simp [h, kindPast, ih]

theorem kindsOf_tail_of_isSettled {ls : List Lexeme} (h : IsSettled ls) :
    (kindsOf ls).tail = kindsOf ls.tail := by
  cases ls with
  | nil => rfl
  | cons l ls => rw [kindsOf_cons_of_isSettled h, List.tail_cons, List.tail_cons]

/-- **Running.**  A rule makes of lexemes what it makes of their kinds. -/
theorem run_kinds (r : Rule ε α) {ls : List Lexeme} (h : IsSettled ls) :
    match r.run ls with
    | .ok (a, rest) => IsSettled rest ∧ r.runKinds (kindsOf ls) = some (a, kindsOf rest)
    | .error _ => r.runKinds (kindsOf ls) = none := by
  -- looking is answered alike on either side; only taking a token moves on, and settles
  induction r generalizing ls with
  | done a => exact ⟨h, rfl⟩
  | fail m => rfl
  | look k ih =>
    rw [run, runKinds, headKind_kindsOf h]
    exact ih _ h
  | lookPast k ih =>
    rw [run, runKinds, kindsOf_tail_of_isSettled h, kindPast_kindsOf]
    exact ih _ h
  | take k ih =>
    rw [run, runKinds, kindsOf_tail_of_isSettled h]
    have hs := settle_kinds (ε := ε) ls.tail
    cases hsettle : (settle ls.tail : Except (Failure ε) (List Lexeme)) with
    | error e =>
      rw [hsettle] at hs
      simp only [hs, Option.bind_none]
    | ok rest =>
      rw [hsettle] at hs
      simp only [hs.2, Option.bind_some]
      exact ih hs.1

/-- A rule reads lexemes to their end exactly if it reads their kinds to the end. -/
theorem read_eq_ok_iff (r : Rule ε α) (ls : List Lexeme) (a : α) :
    r.read ls = .ok a ↔ r.feed (kindsOf ls) = some (a, []) := by
  have hs := settle_kinds (ε := ε) ls
  rw [read, feed]
  cases hsettle : (settle ls : Except (Failure ε) (List Lexeme)) with
  | error e =>
    rw [hsettle] at hs
    simp [hs]
  | ok ahead =>
    rw [hsettle] at hs
    have hr := r.run_kinds hs.1
    simp only [hs.2, Option.bind_some]
    cases hrun : r.run ahead with
    | error e =>
      rw [hrun] at hr
      simp only [hr, reduceCtorEq]
    | ok result =>
      obtain ⟨b, rest⟩ := result
      rw [hrun] at hr
      obtain ⟨hrest, hr⟩ := hr
      rw [hr]
      -- settled lexemes have no white space left to drop, so both ends are reached together
      cases rest with
      | nil => simp [kindsOf]
      | cons l rest => simp [kindsOf_cons_of_isSettled hrest]

/-! ## Rules in a row -/

/-- What comes next satisfies a condition, unless it is a flaw. -/
def Next (P : Option Token → Prop) (ks : List Kind) : Prop :=
  ∀ ahead, settleKinds ks = some ahead → P (headKind ahead)

/-- What comes next satisfies a weaker condition as well. -/
theorem Next.mono {P Q : Option Token → Prop} {ks : List Kind} (h : Next P ks)
    (hPQ : ∀ t, P t → Q t) : Next Q ks :=
  fun ahead hahead => hPQ _ (h ahead hahead)

@[simp] theorem next_nil {P : Option Token → Prop} : Next P [] ↔ P none := by
  simp [Next, settleKinds, headKind]

@[simp] theorem next_token {P : Option Token → Prop} {t : Token} {ks : List Kind} :
    Next P (.token t :: ks) ↔ P (some t) := by
  simp [Next, settleKinds, headKind]

@[simp] theorem next_flaw {P : Option Token → Prop} {m : String} {ks : List Kind} :
    Next P (.flaw m :: ks) := by
  intro ahead hahead
  cases hahead

@[simp] theorem next_comma {P : Option Token → Prop} {ks : List Kind} :
    Next P (.comma :: ks) ↔ Next P ks := Iff.rfl

@[simp] theorem leaving_none (rest : List Kind) : leaving rest (none : Option α) = none := rfl

/-- What is read in two steps is read in one. -/
theorem bind_leaving (rest : List Kind) (o : Option α) (f : α → Option β) :
    (o.bind fun a => leaving rest (f a)) = leaving rest (o.bind f) := by
  cases o <;> rfl

/-- What is read and then put into shape. -/
theorem bind_eq_map (o : Option α) (f : α → β) : (o.bind fun a => some (f a)) = o.map f := by
  cases o <;> rfl

/-- Rules run one after the other. -/
theorem runKinds_bind (r : Rule ε α) (f : α → Rule ε β) (ks : List Kind) :
    (r.bind f).runKinds ks = (r.runKinds ks).bind fun p => (f p.1).runKinds p.2 := by
  induction r generalizing ks with
  | done a => rfl
  | fail m => rfl
  | look k ih => exact ih _ ks
  | lookPast k ih => exact ih _ ks
  | take k ih =>
    rw [bind, runKinds, runKinds, Option.bind_assoc]
    exact congrArg _ (funext fun rest => ih rest)

/-- **Sequencing.**  What a rule leaves behind is what the next rule is fed with. -/
theorem feed_bind {r : Rule ε α} {ks rest : List Kind} {o : Option α}
    (h : r.feed ks = leaving rest o) (f : α → Rule ε β) :
    (r >>= f).feed ks = o.bind fun a => (f a).feed rest := by
  have hbind : (r >>= f).feed ks = (r.feed ks).bind fun p => (f p.1).runKinds p.2 := by
    rw [feed, feed, Option.bind_assoc]
    exact congrArg _ (funext fun ahead => runKinds_bind r f ahead)
  rw [hbind, h, leaving, Option.bind_assoc]
  -- the first rule has settled `rest` already; settling it again is what `feed` would do
  refine congrArg _ (funext fun a => ?_)
  rw [feed]
  cases settleKinds rest <;> rfl

@[simp] theorem feed_pure (a : α) (ks : List Kind) :
    (pure a : Rule ε α).feed ks = leaving ks (some a) := by
  rw [feed, leaving]
  cases settleKinds ks <;> rfl

/-- A rule that fails has no result, whatever it is fed. -/
@[simp] theorem feed_fail (m : ε) (ks : List Kind) : (fail m : Rule ε α).feed ks = none := by
  rw [feed]
  cases settleKinds ks <;> rfl

/-- At a flaw every rule ends. -/
@[simp] theorem feed_flaw (r : Rule ε α) (m : String) (ks : List Kind) :
    r.feed (.flaw m :: ks) = none := rfl

/-- A comma in front makes no difference. -/
@[simp] theorem feed_comma (r : Rule ε α) (ks : List Kind) : r.feed (.comma :: ks) = r.feed ks :=
  rfl

/-! ## Single requests -/

/-- A rule may look at the next token without taking it. -/
@[simp] theorem feed_current (f : Option Token → Rule ε α) (t : Token) (ks : List Kind) :
    (current >>= f).feed (.token t :: ks) = (f (some t)).feed (.token t :: ks) := rfl

@[simp] theorem feed_skip (f : Unit → Rule ε α) (t : Token) (ks : List Kind) :
    (skip >>= f).feed (.token t :: ks) = (f ()).feed ks := rfl

@[simp] theorem feed_skip_end (t : Token) (ks : List Kind) :
    (skip : Rule ε Unit).feed (.token t :: ks) = leaving ks (some ()) := by
  rw [feed, leaving]
  show (settleKinds ks).bind _ = _
  cases settleKinds ks <;> rfl

/-- A rule may look at the second token without taking any. -/
@[simp] theorem feed_second (f : Option Token → Rule ε α) (s t : Token) (ks : List Kind) :
    (second >>= f).feed (.token s :: .token t :: ks) =
      (f (some t)).feed (.token s :: .token t :: ks) := rfl

/-- A rule that depends on what comes next goes the way that all that can come next leads. -/
theorem feed_current_of_next {P : Option Token → Prop} {ks : List Kind} (h : Next P ks)
    {f : Option Token → Rule ε α} {r : Rule ε α} (hf : ∀ t, P t → f t = r) :
    (current >>= f).feed ks = r.feed ks := by
  rw [feed, feed]
  cases hs : settleKinds ks with
  | none => rfl
  | some ahead =>
    show (f (headKind ahead)).runKinds ahead = r.runKinds ahead
    rw [hf _ (h ahead hs)]

@[simp] theorem feed_takeMark (m : Mark) (f : Bool → Rule ε α) (ks : List Kind) :
    (takeMark m >>= f).feed (.token (.mark m) :: ks) = (f true).feed ks := by
  have h : (takeMark m : Rule ε Bool).feed (.token (.mark m) :: ks) = leaving ks (some true) := by
    simp [takeMark]
  rw [feed_bind h]
  rfl

/-- A mark that is not there is not taken. -/
theorem feed_takeMark_of_next {m : Mark} {ks : List Kind} (h : Next (· ≠ some (.mark m)) ks)
    (f : Bool → Rule ε α) : (takeMark m >>= f).feed ks = (f false).feed ks := by
  have hfalse : (takeMark m : Rule ε Bool).feed ks = leaving ks (some false) := by
    rw [takeMark, feed_current_of_next (r := pure false) h fun t ht => if_neg ht, feed_pure]
  rw [feed_bind hfalse]
  rfl

/-- A word that is there is taken. -/
theorem feed_takeWord {word : String} {n : Name} (h : n.text = word) (f : Bool → Rule ε α)
    (ks : List Kind) : (takeWord word >>= f).feed (n.lexeme :: ks) = (f true).feed ks := by
  have htrue : (takeWord word : Rule ε Bool).feed (n.lexeme :: ks) = leaving ks (some true) := by
    simp [takeWord, h]
  rw [feed_bind htrue]
  rfl

/-- A word that is not there is not taken. -/
theorem feed_takeWord_of_next {word : String} {ks : List Kind}
    (h : Next (fun t => ∀ n, t = some (.name n) → n.text ≠ word) ks) (f : Bool → Rule ε α) :
    (takeWord word >>= f).feed ks = (f false).feed ks := by
  have hfalse : (takeWord word : Rule ε Bool).feed ks = leaving ks (some false) := by
    rw [takeWord, feed_current_of_next (r := pure false) h, feed_pure]
    intro t ht
    split
    · next n => exact if_neg (ht n rfl)
    · rfl
  rw [feed_bind hfalse]
  rfl

@[simp] theorem feed_nameOr (complaint : ε) (n : Name) (ks : List Kind) :
    (nameOr complaint).feed (.token (.name n) :: ks) = leaving ks (some n) := by
  simp [nameOr]

@[simp] theorem feed_markOr (m : Mark) (complaint : ε) (ks : List Kind) :
    (markOr m complaint).feed (.token (.mark m) :: ks) = leaving ks (some ()) := by
  simp [markOr]

/-! ## Items in a row -/

/-- The number of tokens among some kinds. -/
def tokenCount (ks : List Kind) : Nat := ks.countP isTokenKind

@[simp] theorem tokenCount_nil : tokenCount [] = 0 := rfl

@[simp] theorem tokenCount_token (t : Token) (ks : List Kind) :
    tokenCount (.token t :: ks) = tokenCount ks + 1 := List.countP_cons_of_pos rfl

@[simp] theorem tokenCount_comma (ks : List Kind) : tokenCount (.comma :: ks) = tokenCount ks :=
  List.countP_cons_of_neg Bool.false_ne_true

@[simp] theorem tokenCount_flaw (m : String) (ks : List Kind) :
    tokenCount (.flaw m :: ks) = tokenCount ks :=
  List.countP_cons_of_neg Bool.false_ne_true

@[simp] theorem tokenCount_stray (m : String) (ks : List Kind) :
    tokenCount (.stray m :: ks) = tokenCount ks :=
  List.countP_cons_of_neg Bool.false_ne_true

@[simp] theorem tokenCount_append (ks ls : List Kind) :
    tokenCount (ks ++ ls) = tokenCount ks + tokenCount ls := List.countP_append

/-- Lexemes hold as many tokens as their kinds. -/
theorem tokenCount_kindsOf (ls : List Lexeme) :
    tokenCount (kindsOf ls) = ls.countP Lexeme.isToken := by
  induction ls with
  | nil => rfl
  | cons l ls ih =>
    rw [kindsOf_cons, List.countP_cons, Lexeme.isToken]
    cases h : l.kind <;> simp [ih]

/-- A part holds no more tokens than the whole. -/
theorem tokenCount_le_flatMap {x : β} {xs : List β} (h : x ∈ xs) (kinds : β → List Kind) :
    tokenCount (kinds x) ≤ tokenCount (xs.flatMap kinds) := by
  induction xs with
  | nil => cases h
  | cons y xs ih =>
    rw [List.flatMap_cons, tokenCount_append]
    rcases List.mem_cons.1 h with rfl | h
    · exact Nat.le_add_right _ _
    · exact Nat.le_trans (ih h) (Nat.le_add_left _ _)

/-- Items that a rule reads one by one: each begins as the rule wants it and is read up to
its end, if what follows it satisfies a condition, which each of them satisfies. -/
structure ReadsEach (item : Rule ε α) (starts : Option Token → Bool) (P : Option Token → Prop)
    (xs : List β) (kinds : β → List Kind) (value? : β → Option α) : Prop where
  counts : ∀ x ∈ xs, 0 < tokenCount (kinds x)
  begins : ∀ x ∈ xs, ∀ rest, Next (fun t => starts t = true ∧ P t) (kinds x ++ rest)
  reads : ∀ x ∈ xs, ∀ rest, Next P rest → item.feed (kinds x ++ rest) = leaving rest (value? x)

section ReadsEach

variable {item : Rule ε α} {starts : Option Token → Bool} {P : Option Token → Prop}
  {x : β} {xs : List β} {kinds : β → List Kind} {value? : β → Option α} {rest : List Kind}

theorem ReadsEach.tail (h : ReadsEach item starts P (x :: xs) kinds value?) :
    ReadsEach item starts P xs kinds value? where
  counts y hy := h.counts y (List.mem_cons_of_mem x hy)
  begins y hy := h.begins y (List.mem_cons_of_mem x hy)
  reads y hy := h.reads y (List.mem_cons_of_mem x hy)

/-- Commas in front of the items change nothing. -/
theorem ReadsEach.comma (h : ReadsEach item starts P xs kinds value?) :
    ReadsEach item starts P xs (fun x => .comma :: kinds x) value? where
  counts x hx := by
    rw [tokenCount_comma]
    exact h.counts x hx
  begins x hx rest := next_comma.2 (h.begins x hx rest)
  reads x hx rest hrest := h.reads x hx rest hrest

/-- What follows items in a row, or the first of them, satisfies the condition. -/
theorem ReadsEach.next (h : ReadsEach item starts P xs kinds value?) (hrest : Next P rest) :
    Next P (xs.flatMap kinds ++ rest) := by
  cases xs with
  | nil => exact hrest
  | cons x xs =>
    rw [List.flatMap_cons, List.append_assoc]
    exact (h.begins x List.mem_cons_self _).mono fun t ht => ht.2

/-- There are no more items than tokens. -/
theorem ReadsEach.length_le (h : ReadsEach item starts P xs kinds value?) :
    xs.length ≤ tokenCount (xs.flatMap kinds) := by
  induction xs with
  | nil => exact Nat.zero_le _
  | cons x xs ih =>
    have hx := h.counts x List.mem_cons_self
    have hxs := ih h.tail
    rw [List.length_cons, List.flatMap_cons, tokenCount_append]
    omega

theorem mapM_cons_option (f : β → Option α) (x : β) (xs : List β) :
    (x :: xs).mapM f = (f x).bind fun a => (xs.mapM f).map (a :: ·) := by
  rw [List.mapM_cons]
  cases f x with
  | none => rfl
  | some a => cases xs.mapM f <;> rfl

/-- Items are read one by one, as many as there are, behind those read so far. -/
theorem feed_manyFrom (h : ReadsEach item starts P xs kinds value?)
    (hrest : Next (fun t => starts t = false ∧ P t) rest) {fuel : Nat}
    (hfuel : xs.length ≤ fuel) (read : List α) :
    (manyFrom starts item fuel read).feed (xs.flatMap kinds ++ rest) =
      leaving rest ((xs.mapM value?).map (read.reverse ++ ·)) := by
  -- what is read so far is kept in reverse, so it generalizes along with the fuel
  induction xs generalizing fuel read with
  | nil =>
    have hdone : leaving rest ((([] : List β).mapM value?).map (read.reverse ++ ·)) =
        leaving rest (some read.reverse) := by
      simp
    rw [hdone]
    cases fuel with
    | zero => exact feed_pure _ _
    | succ fuel =>
      rw [manyFrom, ← feed_pure (ε := ε)]
      exact feed_current_of_next hrest fun t ht => by rw [ht.1]; rfl
  | cons x xs ih =>
    obtain ⟨fuel, rfl⟩ : ∃ n, fuel = n + 1 := ⟨fuel - 1, by simp at hfuel; omega⟩
    have hstart := h.begins x List.mem_cons_self (xs.flatMap kinds ++ rest)
    -- the item ends where the next one, or the rest, begins
    have hitem := h.reads x List.mem_cons_self (xs.flatMap kinds ++ rest)
      (h.tail.next (hrest.mono fun t ht => ht.2))
    rw [List.flatMap_cons, List.append_assoc, manyFrom,
      feed_current_of_next (r := item >>= fun a => manyFrom starts item fuel (a :: read)) hstart
        fun t ht => if_pos ht.1,
      feed_bind hitem]
    have hxs : xs.length ≤ fuel := by simpa using hfuel
    simp only [ih h.tail hxs, bind_leaving]
    rw [mapM_cons_option]
    cases value? x with
    | none => rfl
    | some a => cases xs.mapM value? <;> simp

/-- **Items in a row.**  They are read one by one as long as one begins. -/
theorem feed_many (h : ReadsEach item starts P xs kinds value?)
    (hrest : Next (fun t => starts t = false ∧ P t) rest) {fuel : Nat}
    (hfuel : tokenCount (xs.flatMap kinds) ≤ fuel) :
    (many fuel starts item).feed (xs.flatMap kinds ++ rest) = leaving rest (xs.mapM value?) := by
  rw [many, feed_manyFrom h hrest (Nat.le_trans h.length_le hfuel)]
  cases xs.mapM value? <;> simp

/-- Items after the first, each behind a separator. -/
theorem intercalate_cons_map (sep : List Kind) (x : β) (xs : List β) :
    sep.intercalate ((x :: xs).map kinds) = kinds x ++ xs.flatMap fun y => sep ++ kinds y := by
  induction xs generalizing x with
  | nil => simp
  | cons y xs ih =>
    have h := ih y
    rw [List.map_cons] at h
    rw [List.map_cons, List.map_cons, List.intercalate_cons_cons, h, List.flatMap_cons,
      List.append_assoc, List.append_assoc]

/-- Items with commas between them are read like items with a comma in front of each. -/
theorem feed_commas (r : Rule ε α) (xs : List β) (kinds : β → List Kind) (rest : List Kind) :
    r.feed (commaSeparated (xs.map kinds) ++ rest) =
      r.feed (xs.flatMap (fun x => .comma :: kinds x) ++ rest) := by
  cases xs with
  | nil => rfl
  | cons x xs =>
    rw [commaSeparated, intercalate_cons_map, List.flatMap_cons]
    rfl

/-- It makes no difference to the number of tokens that there is no comma in front. -/
theorem tokenCount_commas (xs : List β) (kinds : β → List Kind) :
    tokenCount (commaSeparated (xs.map kinds)) =
      tokenCount (xs.flatMap fun x => .comma :: kinds x) := by
  cases xs with
  | nil => rfl
  | cons x xs =>
    rw [commaSeparated, intercalate_cons_map, List.flatMap_cons, List.cons_append,
      tokenCount_comma]
    rfl

/-- Items with commas between them are read one by one. -/
theorem feed_many_commas (h : ReadsEach item starts P xs kinds value?)
    (hrest : Next (fun t => starts t = false ∧ P t) rest) {fuel : Nat}
    (hfuel : tokenCount (commaSeparated (xs.map kinds)) ≤ fuel) :
    (many fuel starts item).feed (commaSeparated (xs.map kinds) ++ rest) =
      leaving rest (xs.mapM value?) := by
  rw [tokenCount_commas] at hfuel
  rw [feed_commas]
  exact feed_many h.comma hrest hfuel

end ReadsEach

/-- Names with a mark between them are read one by one. -/
theorem feed_separated {item : Rule ε α} {value? : Name → Option α} {m : Mark}
    (hitem : ∀ n rest, item.feed (n.lexeme :: rest) = leaving rest (value? n))
    (n : Name) (ns : List Name) {rest : List Kind} (hrest : Next (· ≠ some (.mark m)) rest)
    {fuel : Nat}
    (hfuel : tokenCount ([m.lexeme].intercalate ((n :: ns).map fun n => [n.lexeme])) ≤ fuel) :
    (separated fuel m item).feed
        ([m.lexeme].intercalate ((n :: ns).map fun n => [n.lexeme]) ++ rest) =
      leaving rest ((n :: ns).mapM value?) := by
  -- behind the first name, each item is a mark together with the name after it
  have heach : ReadsEach (do skip; item) (fun t => decide (t = some (.mark m))) (fun _ => True) ns
      (fun n => [m.lexeme, n.lexeme]) value? :=
    ⟨fun n _ => by simp, fun n _ rest => by simp, fun n _ rest _ => by simpa using hitem n rest⟩
  have hkinds : [m.lexeme].intercalate ((n :: ns).map fun n => [n.lexeme]) =
      n.lexeme :: ns.flatMap fun n => [m.lexeme, n.lexeme] := by
    rw [intercalate_cons_map]
    rfl
  rw [hkinds, tokenCount_token] at hfuel
  have hmany := feed_many heach (hrest.mono fun t ht => ⟨by simpa using ht, trivial⟩)
    (Nat.le_of_succ_le hfuel)
  rw [hkinds, List.cons_append, separated, feed_bind (hitem n _), mapM_cons_option]
  simp only [feed_bind hmany, feed_pure, bind_leaving, bind_eq_map]

/-! ## Flaws -/

/-- The number of flaws among some kinds. -/
def flawCount (ks : List Kind) : Nat := ks.countP isFlawKind

/-- What settling passes over holds no flaw, and what it comes to starts with none. -/
theorem flawCount_of_settleKinds {ks rest : List Kind} (h : settleKinds ks = some rest) :
    flawCount ks = flawCount rest ∧ flawCount rest.tail = flawCount rest := by
  induction ks using settleKinds.induct with
  | case1 => cases h; exact ⟨rfl, rfl⟩
  | case2 ks ih =>
    obtain ⟨h₁, h₂⟩ := ih h
    exact ⟨by simpa [flawCount, isFlawKind] using h₁, h₂⟩
  | case3 ks ih =>
    obtain ⟨h₁, h₂⟩ := ih h
    exact ⟨by simpa [flawCount, isFlawKind] using h₁, h₂⟩
  | case4 t ks => cases h; exact ⟨rfl, by simp [flawCount, isFlawKind]⟩
  | case5 m ks => cases h; exact ⟨rfl, by simp [flawCount, isFlawKind]⟩
  | case6 m ks => cases h

/-- What a rule reads holds no flaw. -/
theorem flawCount_of_runKinds (r : Rule ε α) {ks rest : List Kind} {a : α}
    (hks : flawCount ks.tail = flawCount ks) (h : r.runKinds ks = some (a, rest)) :
    flawCount ks = flawCount rest := by
  induction r generalizing ks with
  | done b => cases h; rfl
  | fail m => cases h
  | look k ih => exact ih _ hks h
  | lookPast k ih => exact ih _ hks h
  | take k ih =>
    obtain ⟨ahead, hsettle, hrun⟩ := Option.bind_eq_some_iff.1 h
    obtain ⟨h₁, h₂⟩ := flawCount_of_settleKinds hsettle
    rw [← hks, h₁]
    exact ih h₂ hrun

/-- Kinds that a rule reads to their end hold no flaw. -/
theorem flawCount_of_feed (r : Rule ε α) {ks : List Kind} {a : α}
    (h : r.feed ks = some (a, [])) : flawCount ks = 0 := by
  obtain ⟨ahead, hsettle, hrun⟩ := Option.bind_eq_some_iff.1 h
  obtain ⟨h₁, h₂⟩ := flawCount_of_settleKinds hsettle
  rw [h₁, flawCount_of_runKinds r h₂ hrun]
  rfl

end Rule

end SchemaCatalog
