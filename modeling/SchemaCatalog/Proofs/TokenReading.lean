/-
# Reading tokens

What a rule makes of a text without flaws and stray lexemes depends on its tokens alone, but
for commas: a comma may hide the token behind the current one.  Here a rule is related to all
that it may make of some tokens.
-/
import SchemaCatalog.Proofs.SharedLexemes

namespace SchemaCatalog

open Lexeme (Kind)

namespace Rule

variable {ε α β : Type} {r : Rule ε α} {ts rest : List Token} {a : α}

/-! ## Results -/

/-- Whether a rule may read a result from some tokens and leave others behind. -/
def Reads : Rule ε α → List Token → α → List Token → Prop
  | done b, ts, a, rest => a = b ∧ rest = ts
  | fail _, _, _, _ => False
  | look go, ts, a, rest => (go ts.head?).Reads ts a rest
  | lookPast go, ts, a, rest =>
    (go none).Reads ts a rest ∨ (go ts.tail.head?).Reads ts a rest
  | take go, ts, a, rest => go.Reads ts.tail a rest

@[simp] theorem reads_pure {b : α} : (pure b : Rule ε α).Reads ts a rest ↔ a = b ∧ rest = ts :=
  Iff.rfl

@[simp] theorem reads_fail {m : ε} : (fail m : Rule ε α).Reads ts a rest ↔ False := Iff.rfl

@[simp] theorem reads_current {f : Option Token → Rule ε α} :
    (current >>= f).Reads ts a rest ↔ (f ts.head?).Reads ts a rest := Iff.rfl

@[simp] theorem reads_second {f : Option Token → Rule ε α} :
    (second >>= f).Reads ts a rest ↔
      (f none).Reads ts a rest ∨ (f ts.tail.head?).Reads ts a rest := Iff.rfl

@[simp] theorem reads_skip {f : Unit → Rule ε α} :
    (skip >>= f).Reads ts a rest ↔ (f ()).Reads ts.tail a rest := Iff.rfl

@[simp] theorem reads_skip_end {u : Unit} : (skip : Rule ε Unit).Reads ts u rest ↔ rest = ts.tail :=
  ⟨fun h => h.2, fun h => ⟨rfl, h⟩⟩

/-- Rules that follow each other read one after the other. -/
theorem reads_bind {f : α → Rule ε β} {b : β} :
    (r >>= f).Reads ts b rest ↔ ∃ a mid, r.Reads ts a mid ∧ (f a).Reads mid b rest := by
  induction r generalizing ts with
  | done c =>
    constructor
    · exact fun h => ⟨c, ts, ⟨rfl, rfl⟩, h⟩
    · rintro ⟨_, _, ⟨rfl, rfl⟩, h⟩
      exact h
  | fail m =>
    constructor
    · exact False.elim
    · rintro ⟨_, _, h, -⟩
      exact h
  | look go ih => exact ih _
  | lookPast go ih =>
    constructor
    · rintro (h | h)
      · obtain ⟨c, mid, hc, hf⟩ := (ih _).1 h
        exact ⟨c, mid, Or.inl hc, hf⟩
      · obtain ⟨c, mid, hc, hf⟩ := (ih _).1 h
        exact ⟨c, mid, Or.inr hc, hf⟩
    · rintro ⟨c, mid, hc | hc, hf⟩
      · exact Or.inl ((ih _).2 ⟨c, mid, hc, hf⟩)
      · exact Or.inr ((ih _).2 ⟨c, mid, hc, hf⟩)
  | take go ih => exact ih

/-- A rule takes tokens from the front. -/
theorem Reads.isSuffix (h : r.Reads ts a rest) : rest <:+ ts := by
  induction r generalizing ts with
  | done b => exact h.2 ▸ List.suffix_rfl
  | fail m => cases h
  | look go ih => exact ih _ h
  | lookPast go ih => exact h.elim (ih _) (ih _)
  | take go ih => exact (ih h).trans (List.tail_suffix ts)

/-! ## Single tokens -/

/-- A name is read if it is the first token. -/
theorem reads_nameOr {m : ε} {n : Name} :
    (nameOr m).Reads ts n rest ↔ ts = .name n :: rest := by
  rw [nameOr, reads_current]
  rcases ts with _ | ⟨t, ts⟩
  · simp
  · cases t <;> simp [eq_comm]

/-- Whether a mark is the first token is told, and it is taken if so. -/
theorem reads_takeMark {m : Mark} {b : Bool} : (takeMark m : Rule ε Bool).Reads ts b rest ↔
    b = true ∧ ts = .mark m :: rest ∨ b = false ∧ ts.head? ≠ some (.mark m) ∧ rest = ts := by
  rw [takeMark, reads_current]
  split
  · next h =>
    obtain ⟨tl, rfl⟩ : ∃ tl, ts = .mark m :: tl := by
      cases ts with
      | nil => cases h
      | cons t tl =>
        cases h
        exact ⟨tl, rfl⟩
    simp [eq_comm]
  · next h =>
    simp only [reads_pure]
    constructor
    · rintro ⟨rfl, rfl⟩
      exact Or.inr ⟨rfl, h, rfl⟩
    · rintro (⟨-, rfl⟩ | ⟨rfl, -, rfl⟩)
      · exact absurd rfl h
      · exact ⟨rfl, rfl⟩

/-- A mark is read if it is the first token. -/
theorem reads_markOr {m : Mark} {c : ε} {u : Unit} :
    (markOr m c).Reads ts u rest ↔ ts = .mark m :: rest := by
  rw [markOr, reads_current]
  split
  · next h =>
    cases ts with
    | nil => cases h
    | cons t tl =>
      cases h
      simp [eq_comm]
  · next h =>
    simp only [reads_fail, false_iff]
    rintro rfl
    exact h rfl

/-- Whether a word is the first token is told, and it is taken if so. -/
theorem reads_takeWord {word : String} {b : Bool} :
    (takeWord word : Rule ε Bool).Reads ts b rest ↔
      b = true ∧ (∃ n, n.text = word ∧ ts = .name n :: rest) ∨
      b = false ∧ (∀ n, ts.head? = some (.name n) → n.text ≠ word) ∧ rest = ts := by
  rw [takeWord, reads_current]
  split
  · next n h =>
    cases ts with
    | nil => cases h
    | cons t tl =>
      cases h
      split
      · next hn => simp [hn, eq_comm]
      · next hn => simp [hn]
  · next h =>
    simp only [reads_pure]
    constructor
    · rintro ⟨rfl, rfl⟩
      exact Or.inr ⟨rfl, fun n hn => absurd hn (h n), rfl⟩
    · rintro (⟨-, n, -, rfl⟩ | ⟨rfl, -, rfl⟩)
      · exact absurd rfl (h n)
      · exact ⟨rfl, rfl⟩

/-! ## Items in a row -/

variable {starts : Option Token → Bool}

/-- What has been read already comes first, behind what else has been read. -/
theorem reads_manyFrom_append {fuel : Nat} (pre : List α) {read xs : List α} :
    (manyFrom starts r fuel (pre ++ read)).Reads ts xs rest ↔
      ∃ ys, (manyFrom starts r fuel pre).Reads ts ys rest ∧ xs = read.reverse ++ ys := by
  -- `pre` grows by the items read on the way, `read` stays
  induction fuel generalizing ts pre xs with
  | zero =>
    simp only [manyFrom, reads_pure, List.reverse_append]
    constructor
    · rintro ⟨rfl, rfl⟩
      exact ⟨_, ⟨rfl, rfl⟩, rfl⟩
    · rintro ⟨_, ⟨rfl, rfl⟩, rfl⟩
      exact ⟨rfl, rfl⟩
  | succ fuel ih =>
    simp only [manyFrom, reads_current]
    split
    · simp only [reads_bind]
      constructor
      · rintro ⟨x, mid, hx, hxs⟩
        obtain ⟨ys, hys, rfl⟩ := (ih (x :: pre)).1 hxs
        exact ⟨ys, ⟨x, mid, hx, hys⟩, rfl⟩
      · rintro ⟨ys, ⟨x, mid, hx, hys⟩, rfl⟩
        exact ⟨x, mid, hx, (ih (x :: pre)).2 ⟨ys, hys, rfl⟩⟩
    · simp only [reads_pure, List.reverse_append]
      constructor
      · rintro ⟨rfl, rfl⟩
        exact ⟨_, ⟨rfl, rfl⟩, rfl⟩
      · rintro ⟨_, ⟨rfl, rfl⟩, rfl⟩
        exact ⟨rfl, rfl⟩

/-- What has been read already comes first. -/
theorem reads_manyFrom {fuel : Nat} {read xs : List α} :
    (manyFrom starts r fuel read).Reads ts xs rest ↔
      ∃ ys, (many fuel starts r).Reads ts ys rest ∧ xs = read.reverse ++ ys :=
  reads_manyFrom_append []

theorem reads_many_zero {xs : List α} :
    (many 0 starts r).Reads ts xs rest ↔ xs = [] ∧ rest = ts := Iff.rfl

/-- There is another item, if one starts. -/
theorem reads_many_succ {fuel : Nat} {xs : List α} :
    (many (fuel + 1) starts r).Reads ts xs rest ↔
      starts ts.head? = true ∧ (∃ x mid ys, r.Reads ts x mid ∧
        (many fuel starts r).Reads mid ys rest ∧ xs = x :: ys) ∨
      starts ts.head? = false ∧ xs = [] ∧ rest = ts := by
  rw [many, manyFrom, reads_current]
  split
  · next h =>
    simp only [h, reads_bind, reads_manyFrom, true_and, Bool.true_eq_false, false_and, or_false,
      List.reverse_singleton, List.singleton_append]
    constructor
    · rintro ⟨x, mid, hx, ys, hys, rfl⟩
      exact ⟨x, mid, ys, hx, hys, rfl⟩
    · rintro ⟨x, mid, ys, hx, hys, rfl⟩
      exact ⟨x, mid, hx, ys, hys, rfl⟩
  · next h => simp [h]

/-- Items in a row go on until none starts, if each of them takes a token and there are not
more tokens than items may be. -/
theorem Reads.stops {fuel : Nat} {xs : List α} (h : (many fuel starts r).Reads ts xs rest)
    (hnone : starts none = false)
    (hless : ∀ ts x mid, starts ts.head? = true → r.Reads ts x mid → mid.length < ts.length)
    (hfuel : ts.length ≤ fuel) : starts rest.head? = false := by
  induction fuel generalizing ts xs with
  | zero =>
    obtain ⟨-, rfl⟩ := reads_many_zero.1 h
    rw [List.length_eq_zero_iff.1 (Nat.le_zero.1 hfuel)]
    exact hnone
  | succ fuel ih =>
    rcases reads_many_succ.1 h with ⟨hstarts, x, mid, ys, hx, hys, -⟩ | ⟨hstarts, -, rfl⟩
    · have := hless ts x mid hstarts hx
      exact ih hys (by omega)
    · exact hstarts

/-! ## Kinds and their tokens -/

/-- Whether the first of some kinds, if there is one, is a token. -/
def AtToken (ks : List Kind) : Prop := ks = [] ∨ ∃ t tl, ks = .token t :: tl

/-- Passing white space and commas passes no token. -/
theorem tokensIn_settleKinds {ks ahead : List Kind} (h : settleKinds ks = some ahead) :
    tokensIn ahead = tokensIn ks := by
  induction ks with
  | nil =>
    cases h
    rfl
  | cons k ks ih =>
    cases k with
    | blank | comma => exact ih h
    | token | stray =>
      cases h
      rfl
    | flaw => cases h

/-- There are as many tokens as are counted. -/
theorem length_tokensIn (ks : List Kind) : (tokensIn ks).length = tokenCount ks := by
  induction ks with
  | nil => rfl
  | cons k ks ih =>
    cases k with
    | token t => exact (congrArg Nat.succ ih).trans (tokenCount_token t ks).symm
    | blank | comma | flaw | stray =>
      rw [tokenCount, List.countP_cons]
      exact ih

/-- Without strays a token comes next. -/
theorem atToken_settleKinds {ks ahead : List Kind} (h : settleKinds ks = some ahead)
    (hstray : strayCount ks = 0) : AtToken ahead := by
  induction ks with
  | nil =>
    cases h
    exact Or.inl rfl
  | cons k ks ih =>
    cases k with
    | blank | comma => exact ih h hstray
    | token t =>
      cases h
      exact Or.inr ⟨t, ks, rfl⟩
    | stray => simp [strayCount] at hstray
    | flaw => cases h

/-- At a token the first one is the current one. -/
theorem head?_tokensIn {ks : List Kind} (h : AtToken ks) : (tokensIn ks).head? = headKind ks := by
  rcases h with rfl | ⟨t, tl, rfl⟩ <;> rfl

/-- At a token the tail loses that token. -/
theorem tokensIn_tail {ks : List Kind} (h : AtToken ks) :
    tokensIn ks.tail = (tokensIn ks).tail := by
  rcases h with rfl | ⟨t, tl, rfl⟩ <;> rfl

/-- A comma may hide the token that comes next. -/
theorem kindPast_eq (ks : List Kind) : kindPast ks = none ∨ kindPast ks = (tokensIn ks).head? := by
  induction ks with
  | nil => exact Or.inl rfl
  | cons k ks ih =>
    cases k with
    | token => exact Or.inr rfl
    | comma => exact Or.inl rfl
    | blank | flaw | stray => exact ih

/-- What a rule makes of kinds without strays it may make of their tokens. -/
theorem reads_of_runKinds {ks last : List Kind} (hstray : strayCount ks = 0) (hks : AtToken ks)
    (hrun : r.runKinds ks = some (a, last)) :
    r.Reads (tokensIn ks) a (tokensIn last) ∧ strayCount last = 0 ∧ AtToken last := by
  induction r generalizing ks with
  | done b =>
    cases hrun
    exact ⟨⟨rfl, rfl⟩, hstray, hks⟩
  | fail m => cases hrun
  | look go ih =>
    rw [Reads, head?_tokensIn hks]
    exact ih _ hstray hks hrun
  | lookPast go ih =>
    obtain ⟨hreads, hlast⟩ := ih _ hstray hks hrun
    refine ⟨?_, hlast⟩
    rw [Reads, ← tokensIn_tail hks]
    rcases kindPast_eq ks.tail with hpast | hpast <;> rw [hpast] at hreads
    · exact Or.inl hreads
    · exact Or.inr hreads
  | take go ih =>
    rw [runKinds, Option.bind_eq_some_iff] at hrun
    obtain ⟨ahead, hsettle, hrun⟩ := hrun
    have htail : strayCount ks.tail = 0 :=
      Nat.le_zero.1 (hstray ▸ (List.tail_sublist ks).countP_le)
    have hreads := ih ((strayCount_settleKinds hsettle).trans htail)
      (atToken_settleKinds hsettle htail) hrun
    rwa [tokensIn_settleKinds hsettle, tokensIn_tail hks] at hreads

/-- A rule reads from kinds what it may read from their tokens. -/
theorem reads_of_feed {ks : List Kind} (hstray : strayCount ks = 0)
    (hfeed : r.feed ks = some (a, [])) : r.Reads (tokensIn ks) a [] := by
  obtain ⟨ahead, hsettle, hrun⟩ := Option.bind_eq_some_iff.1 hfeed
  have hreads := (reads_of_runKinds ((strayCount_settleKinds hsettle).trans hstray)
    (atToken_settleKinds hsettle hstray) hrun).1
  rwa [tokensIn_settleKinds hsettle] at hreads

/-! ## Lexemes and their tokens -/

/-- Lexemes without strays, the first of which is a token. -/
structure IsReady (ls : List Lexeme) : Prop where
  settled : IsSettled ls
  strays : strayCount (kindsOf ls) = 0

theorem IsReady.atToken {ls : List Lexeme} (h : IsReady ls) : AtToken (kindsOf ls) := by
  cases ls with
  | nil => exact Or.inl rfl
  | cons l ls =>
    have hstrays := h.strays
    rw [kindsOf_cons_of_isSettled h.settled] at hstrays ⊢
    rcases h.settled with ⟨t, hl⟩ | ⟨m, hl⟩
    · exact Or.inr ⟨t, _, by rw [hl]⟩
    · simp [hl, strayCount] at hstrays

/-- The current token of lexemes that are ready is their first one. -/
theorem IsReady.headToken_eq {ls : List Lexeme} (h : IsReady ls) :
    headToken ls = (tokensIn (kindsOf ls)).head? := by
  rw [head?_tokensIn h.atToken, headKind_kindsOf h.settled]

/-- Settling leads to the first token. -/
theorem isReady_of_settle {ls ahead : List Lexeme} (hstrays : strayCount (kindsOf ls) = 0)
    (h : (settle ls : Except (Failure ε) (List Lexeme)) = .ok ahead) :
    IsReady ahead ∧ tokensIn (kindsOf ahead) = tokensIn (kindsOf ls) := by
  have hkinds := settle_kinds (ε := ε) ls
  rw [h] at hkinds
  exact ⟨⟨hkinds.1, (strayCount_settleKinds hkinds.2).trans hstrays⟩,
    tokensIn_settleKinds hkinds.2⟩

/-- What a rule makes of lexemes it may make of their tokens. -/
theorem reads_of_run {ls rest : List Lexeme} (h : IsReady ls) (hrun : r.run ls = .ok (a, rest)) :
    r.Reads (tokensIn (kindsOf ls)) a (tokensIn (kindsOf rest)) ∧ IsReady rest := by
  have hkinds := r.run_kinds h.settled
  rw [hrun] at hkinds
  obtain ⟨hreads, hstrays, -⟩ := reads_of_runKinds h.strays h.atToken hkinds.2
  exact ⟨hreads, hkinds.1, hstrays⟩

end Rule

end SchemaCatalog
