/-
# Rules in lockstep

A text and its repaired text hold the same tokens, except for separators.  To compare what
is read of them, two rules are followed through the tokens of the text, side by side: they
make the same requests, although they may differ in their fuel.  What matters of a rule is
where it can take a separator, where it can take a name that lacks one, and what it can see
past the current token.
-/
import SchemaCatalog.Proofs.Repairs

namespace SchemaCatalog

namespace Rule

variable {ε α β : Type}

/-- A rule that has looked at the current token. -/
def seen (t : Option Token) : Rule ε α → Rule ε α
  | look go => (go t).seen t
  | r => r

/-- Looking at the current token changes nothing. -/
theorem runKinds_seen (r : Rule ε α) (ks : List Lexeme.Kind) :
    (r.seen (headKind ks)).runKinds ks = r.runKinds ks := by
  induction r with
  | look go ih => exact ih _
  | done | fail | lookPast | take => rfl

/-- The first rule of two in a row looks before the second. -/
theorem seen_bind (t : Option Token) (r : Rule ε α) (f : α → Rule ε β) :
    (r >>= f).seen t = (r.seen t >>= f).seen t := by
  induction r with
  | look go ih => exact ih _
  | done | fail | lookPast | take => rfl

end Rule

namespace Document

open Implements Rule

/-! ## Where a rule stands -/

/-- What is known of the tokens before a place: those passed last, and how many brackets are
open. -/
structure Spot where
  passed : Passed
  depth : Nat

namespace Spot

/-- The number of open brackets after a token. -/
def depthAfter (depth : Nat) : Token → Nat
  | .mark m => if m.isOpening then depth + 1 else if m.isClosing then depth - 1 else depth
  | _ => depth

/-- The place behind one more token. -/
def pass (s : Spot) (t : Token) : Spot := ⟨s.passed.pass t, depthAfter s.depth t⟩

/-- Where a separator may be put in without harm: outside all brackets and directly behind
the word that opens a list of interfaces. -/
def IsHarmless (s : Spot) : Prop :=
  s.depth = 0 ∧ ∃ n, s.passed.last = some n ∧ n.text = "implements"

end Spot

/-- What a rule refuses that comes to a name without a separator. -/
inductive Guard where
  /-- It would refuse the separator. -/
  | mark
  /-- It refuses the name. -/
  | name
  /-- It takes the name, and would take a separator before it as well. -/
  | both

/-- Where a rule stands in a text: behind which tokens, at which token, and what else is
known of the tokens that lie ahead. -/
structure Stand extends Spot where
  current : Option Token
  /-- The token past the current one, if it is known. -/
  ahead : Option Token
  /-- No more tokens than these are left, the current one included. -/
  left : Nat
  guard : Guard

namespace Stand

/-- What may come behind the current token. -/
def Allows (σ : Stand) (next : Option Token) : Prop :=
  (∀ t, σ.ahead = some t → next = some t) ∧ (next.isSome = true → 1 < σ.left)

/-- The stand at the token that comes next. -/
def past (σ : Stand) (t : Token) (next : Option Token) (g : Guard) : Stand :=
  ⟨σ.toSpot.pass t, next, none, σ.left - 1, g⟩

/-- The stand of a rule that has seen what is past the current token. -/
def glance (σ : Stand) (t : Option Token) : Stand := { σ with ahead := t }

/-- What may be taken at a stand: a name that lacks a separator only where that does harm or
the separator is taken as well, and a separator only where names are not taken in its
place. -/
def MayTake (σ : Stand) (t : Token) : Prop :=
  match σ.guard with
  | .mark => t ≠ .mark .ampersand ∧ (σ.passed.lacksSeparator t = true → ¬σ.IsHarmless)
  | .name => σ.passed.lacksSeparator t = false
  | .both => True

/-- What is no separator and lacks none may always be taken. -/
theorem mayTake {σ : Stand} {t : Token} (hmark : t ≠ .mark .ampersand)
    (hlacks : σ.passed.lacksSeparator t = false) : σ.MayTake t := by
  unfold MayTake
  split
  · exact ⟨hmark, fun h => by rw [hlacks] at h; cases h⟩
  · exact hlacks
  · trivial

end Stand

/-- What must make no difference past the current token: a separator, and behind a name
another one that can be the name of an interface. -/
def IsFaint (current past : Option Token) : Prop :=
  past = some (.mark .ampersand) ∨
    startsName current = true ∧ ∃ n, past = some (.name n) ∧ n.text ∉ definitionWords

variable {α β : Type}

/-- Whether a rule keeps up a guard at the place that it comes to.  Inside brackets every rule
is guarded against separators. -/
def Keeps (s : Spot) (r : Production α) : Guard → Prop
  | .mark => True
  | .name => s.depth = 0
  | .both => s.depth = 0 ∧ (s.passed.place = .afterName → s.IsHarmless ∧ ∀ n, ∃ go,
      r.seen (some (.mark .ampersand)) = .take go ∧
        go.seen (some (.name n)) = r.seen (some (.name n)))

/-- Two rules that make the same requests from a place on, up to a result that satisfies a
condition. -/
def Lockstep (Q : α → Stand → Prop) : Production α → Production α → Stand → Prop
  | .done a, r', σ => r'.seen σ.current = .done a ∧ Q a σ
  | .fail _, r', σ => ∃ m, r'.seen σ.current = .fail m
  | .look go, r', σ => Lockstep Q (go σ.current) r' σ
  | .lookPast go, r', σ =>
    ∃ go', r'.seen σ.current = .lookPast go' ∧ σ.current ≠ some (.mark .ampersand) ∧
      (∀ t, IsFaint σ.current t → go t = go none ∧ go' t = go' none) ∧
        ∀ t, Lockstep Q (go t) (go' t) (σ.glance t)
  | .take go, r', σ =>
    ∃ go', r'.seen σ.current = .take go' ∧
      match σ.current with
      | none => Lockstep Q go go' σ
      | some t => σ.MayTake t ∧ ∃ g, Keeps (σ.toSpot.pass t) go' g ∧
          ∀ next, σ.Allows next → Lockstep Q go go' (σ.past t next g)

/-- Only outside brackets a rule is not guarded against separators. -/
theorem Keeps.depth_eq {s : Spot} {r : Production α} {g : Guard} (h : Keeps s r g)
    (hg : g ≠ .mark) : s.depth = 0 := by
  cases g with
  | mark => exact absurd rfl hg
  | name => exact h
  | both => exact h.1

/-- What follows a rule does not matter to its guard. -/
theorem Keeps.bind {s : Spot} {r : Production α} {g : Guard} (h : Keeps s r g)
    (f : α → Production β) : Keeps s (r >>= f) g := by
  cases g with
  | mark => trivial
  | name => exact h
  | both =>
    refine ⟨h.1, fun hplace => ?_⟩
    obtain ⟨hharmless, hnames⟩ := h.2 hplace
    refine ⟨hharmless, fun n => ?_⟩
    obtain ⟨go, hmark, hname⟩ := hnames n
    refine ⟨go >>= f, by rw [seen_bind, hmark]; rfl, ?_⟩
    rw [seen_bind, hname, ← seen_bind]

namespace Lockstep

variable {P Q : α → Stand → Prop} {R : β → Stand → Prop} {r r' r'' : Production α} {σ : Stand}

/-- What the second rule sees first does not matter. -/
theorem congr (h : Lockstep Q r r' σ) (hr : r'.seen σ.current = r''.seen σ.current) :
    Lockstep Q r r'' σ := by
  induction r with
  | look go ih => exact ih _ h
  | done | fail | lookPast | take =>
    unfold Lockstep at h ⊢
    rwa [← hr]

theorem mono (h : Lockstep P r r' σ) (hPQ : ∀ a τ, P a τ → Q a τ) : Lockstep Q r r' σ := by
  induction r generalizing r' σ with
  | done a => exact ⟨h.1, hPQ _ _ h.2⟩
  | fail m => exact h
  | look go ih => exact ih _ h
  | lookPast go ih =>
    obtain ⟨go', hseen, hcur, hfaint, hgo⟩ := h
    exact ⟨go', hseen, hcur, hfaint, fun t => ih t (hgo t)⟩
  | take go ih =>
    obtain ⟨go', hseen, hgo⟩ := h
    refine ⟨go', hseen, ?_⟩
    cases hcur : σ.current with
    | none =>
      rw [hcur] at hgo
      exact ih hgo
    | some t =>
      rw [hcur] at hgo
      obtain ⟨hmay, g, hkeeps, hnext⟩ := hgo
      exact ⟨hmay, g, hkeeps, fun next hallows => ih (hnext next hallows)⟩

/-- **Sequencing.**  Two pairs of rules in lockstep, one behind the other. -/
theorem bind {f f' : α → Production β}
    (h : Lockstep (fun a τ => Lockstep R (f a) (f' a) τ) r r' σ) :
    Lockstep R (r >>= f) (r' >>= f') σ := by
  induction r generalizing r' σ with
  | done a =>
    -- the first rule is through, so both go on with what follows
    obtain ⟨hseen, hf⟩ := h
    refine hf.congr ?_
    rw [seen_bind _ r', hseen]
    rfl
  | fail m =>
    obtain ⟨m', hseen⟩ := h
    refine ⟨m', ?_⟩
    rw [seen_bind, hseen]
    rfl
  | look go ih => exact ih _ h
  | lookPast go ih =>
    obtain ⟨go', hseen, hcur, hfaint, hgo⟩ := h
    refine ⟨fun t => go' t >>= f', by rw [seen_bind, hseen]; rfl, hcur, ?_, fun t => ih t (hgo t)⟩
    intro t ht
    obtain ⟨hgo, hgo'⟩ := hfaint t ht
    exact ⟨congrArg (· >>= f) hgo, congrArg (· >>= f') hgo'⟩
  | take go ih =>
    obtain ⟨go', hseen, hgo⟩ := h
    refine ⟨go' >>= f', by rw [seen_bind, hseen]; rfl, ?_⟩
    cases hcur : σ.current with
    | none =>
      rw [hcur] at hgo
      exact ih hgo
    | some t =>
      rw [hcur] at hgo
      obtain ⟨hmay, g, hkeeps, hnext⟩ := hgo
      exact ⟨hmay, g, hkeeps.bind f', fun next hallows => ih (hnext next hallows)⟩

/-! ## Single requests -/

theorem pure {a : α} (h : Q a σ) : Lockstep Q (pure a) (pure a) σ := ⟨rfl, h⟩

theorem fail (m m' : String) : Lockstep Q (.fail m) (.fail m') σ := ⟨m', rfl⟩

theorem current {f f' : Option Token → Production α}
    (h : Lockstep Q (f σ.current) (f' σ.current) σ) :
    Lockstep Q (current >>= f) (current >>= f') σ :=
  h.congr rfl

theorem second {f f' : Option Token → Production α}
    (hcur : σ.current ≠ some (.mark .ampersand))
    (hfaint : ∀ t, IsFaint σ.current t → f t = f none ∧ f' t = f' none)
    (h : ∀ t, Lockstep Q (f t) (f' t) (σ.glance t)) :
    Lockstep Q (second >>= f) (second >>= f') σ :=
  ⟨f', rfl, hcur, hfaint, h⟩

theorem skip {f f' : Unit → Production α} {t : Token} (hcur : σ.current = some t)
    (hmay : σ.MayTake t) (g : Guard) (hkeeps : Keeps (σ.toSpot.pass t) (f' ()) g)
    (h : ∀ next, σ.Allows next → Lockstep Q (f ()) (f' ()) (σ.past t next g)) :
    Lockstep Q (skip >>= f) (skip >>= f') σ := by
  refine ⟨f' (), rfl, ?_⟩
  rw [hcur]
  exact ⟨hmay, g, hkeeps, h⟩

/-- A mark other than the separator is taken if it is there. -/
theorem takeMark {f f' : Bool → Production α} {m : Mark} (hm : m ≠ .ampersand)
    (htrue : σ.current = some (.mark m) → ∀ next, σ.Allows next →
      Lockstep Q (f true) (f' true) (σ.past (.mark m) next .mark))
    (hfalse : σ.current ≠ some (.mark m) → Lockstep Q (f false) (f' false) σ) :
    Lockstep Q (takeMark m >>= f) (takeMark m >>= f') σ := by
  refine bind (current ?_)
  by_cases hcur : σ.current = some (.mark m)
  · rw [if_pos hcur]
    refine skip hcur (Stand.mayTake (by simpa using hm) rfl) .mark trivial fun next hnext => ?_
    exact pure (htrue hcur next hnext)
  · rw [if_neg hcur]
    exact pure (hfalse hcur)

/-- A word is taken if it is there. -/
theorem takeWord {f f' : Bool → Production α} {word : String}
    (htrue : ∀ n, σ.current = some (.name n) → n.text = word →
      Lockstep Q (Rule.skip >>= fun _ => f true) (Rule.skip >>= fun _ => f' true) σ)
    (hfalse : Lockstep Q (f false) (f' false) σ) :
    Lockstep Q (takeWord word >>= f) (takeWord word >>= f') σ := by
  have hcurrent {g g' : Option Token → Production Bool}
      (h : Lockstep Q (g σ.current >>= f) (g' σ.current >>= f') σ) :
      Lockstep Q ((Rule.current >>= g) >>= f) ((Rule.current >>= g') >>= f') σ := h.congr rfl
  refine hcurrent ?_
  split
  · next n hcur =>
    by_cases hn : n.text = word
    · rw [if_pos hn]
      exact htrue n hcur hn
    · rw [if_neg hn]
      exact hfalse
  · exact hfalse

end Lockstep

/-! ## Steps -/

/-- Two rules that go in lockstep wherever one condition is satisfied, and come to where
another one is. -/
def Steps (P : Stand → Prop) (r r' : Production α) (Q : Stand → Prop) : Prop :=
  ∀ σ, P σ → Lockstep (fun _ τ => Q τ) r r' σ

/-- A stand at a given token. -/
def Facing (P : Stand → Prop) (t : Option Token) (σ : Stand) : Prop := P σ ∧ σ.current = t

/-- A stand inside so many brackets, with no more than so many tokens left.  Inside brackets
no rule takes a separator. -/
structure At (depth count : Nat) (σ : Stand) : Prop where
  left : σ.left ≤ count
  here : ∀ t, σ.current = some t →
    0 < σ.left ∧ σ.depth = depth ∧ (0 < depth → σ.guard = .mark)

section

variable {depth count : Nat} {σ : Stand}

theorem At.mono {count' : Nat} (h : At depth count σ) (hle : count ≤ count') :
    At depth count' σ := ⟨Nat.le_trans h.left hle, h.here⟩

/-- Taking a token moves on by one. -/
theorem At.past (h : At depth count σ) {t : Token} (hcur : σ.current = some t)
    {next : Option Token} (hnext : σ.Allows next) {g : Guard}
    (hg : 0 < Spot.depthAfter depth t → g = .mark) :
    At (Spot.depthAfter depth t) (count - 1) (σ.past t next g) where
  left := Nat.sub_le_sub_right h.left 1
  here := by
    rintro u rfl
    refine ⟨Nat.sub_pos_of_lt (hnext.2 rfl), ?_, hg⟩
    rw [← (h.here t hcur).2.1]
    rfl

/-- Inside brackets names may be taken. -/
theorem At.mayTake (h : At depth count σ) {t : Token} (hcur : σ.current = some t)
    (hmark : t ≠ .mark .ampersand) (hname : t.isName = true → 0 < depth) : σ.MayTake t := by
  cases t with
  | name n =>
    obtain ⟨-, hdepth, hguard⟩ := h.here _ hcur
    have hpos := hname rfl
    unfold Stand.MayTake
    rw [hguard hpos]
    refine ⟨hmark, fun _ hharmless => ?_⟩
    have : σ.depth = 0 := hharmless.1
    omega
  | mark | int | float | string => exact Stand.mayTake hmark rfl

variable {P P' Q Q' R : Stand → Prop} {r r' : Production α}

theorem Steps.mono (h : Steps P r r' Q) (hP : ∀ σ, P' σ → P σ) (hQ : ∀ σ, Q σ → Q' σ) :
    Steps P' r r' Q' :=
  fun σ hσ => (h σ (hP σ hσ)).mono fun _ => hQ

theorem Steps.weaken (h : Steps P r r' Q) (hP : ∀ σ, P' σ → P σ) : Steps P' r r' Q :=
  fun σ hσ => h σ (hP σ hσ)

theorem Steps.bind (h : Steps P r r' R) {f f' : α → Production β}
    (hf : ∀ a, Steps R (f a) (f' a) Q) : Steps P (r >>= f) (r' >>= f') Q :=
  fun σ hσ => ((h σ hσ).mono fun a τ hτ => hf a τ hτ).bind

theorem steps_pure {a : α} (h : ∀ σ, P σ → Q σ) : Steps P (pure a) (pure a) Q :=
  fun σ hσ => .pure (h σ hσ)

theorem steps_fail (m m' : String) : Steps P (.fail m : Production α) (.fail m') Q :=
  fun _ _ => .fail m m'

theorem steps_current {f f' : Option Token → Production α}
    (h : ∀ t, Steps (Facing P t) (f t) (f' t) Q) :
    Steps P (current >>= f) (current >>= f') Q :=
  fun σ hσ => .current (h σ.current σ ⟨hσ, rfl⟩)

/-- Looking at a token that is known. -/
theorem steps_currentAt {t : Option Token} {f f' : Option Token → Production α}
    (h : Steps (Facing P t) (f t) (f' t) Q) :
    Steps (Facing P t) (current >>= f) (current >>= f') Q := by
  rintro σ ⟨hσ, rfl⟩
  exact .current (h σ ⟨hσ, rfl⟩)

/-- Wherever a token is taken behind which no separator may come. -/
theorem steps_take {t : Token} (hmay : ∀ σ, P σ → σ.current = some t → σ.MayTake t)
    (hpast : ∀ σ next, P σ → σ.current = some t → σ.Allows next → R (σ.past t next .mark))
    {f f' : Unit → Production α} (h : Steps R (f ()) (f' ()) Q) :
    Steps (Facing P (some t)) (skip >>= f) (skip >>= f') Q :=
  fun σ hσ => .skip hσ.2 (hmay σ hσ.1 hσ.2) .mark trivial
    fun next hnext => h _ (hpast σ next hσ.1 hσ.2 hnext)

/-- Wherever no name is taken, or one inside brackets. -/
theorem steps_skip {t : Token} (hmark : t ≠ .mark .ampersand) (hname : t.isName = true → 0 < depth)
    {f f' : Unit → Production α}
    (h : Steps (At (Spot.depthAfter depth t) (count - 1)) (f ()) (f' ()) Q) :
    Steps (Facing (At depth count) (some t)) (skip >>= f) (skip >>= f') Q :=
  steps_take (fun _ hσ hcur => hσ.mayTake hcur hmark hname)
    (fun _ _ hσ hcur hnext => hσ.past hcur hnext fun _ => rfl) h

/-! ## Items in a row -/

theorem Lockstep.of_seen {Q : α → Stand → Prop} {σ : Stand} {a : α}
    (h : r.seen σ.current = .done a) (h' : r'.seen σ.current = .done a) (ha : Q a σ) :
    Lockstep Q r r' σ := by
  induction r with
  | look go ih => exact ih _ h
  | done b =>
    cases h
    exact ⟨h', ha⟩
  | fail | lookPast | take => cases h

/-- Items are not read where none can begin. -/
theorem seen_manyFrom {starts : Option Token → Bool} {t : Option Token} (h : starts t = false)
    (item : Production α) (fuel : Nat) (read : List α) :
    (manyFrom starts item fuel read).seen t = .done read.reverse := by
  cases fuel with
  | zero => rfl
  | succ fuel =>
    show (if starts t = true then _ else _ : Production (List α)).seen t = _
    rw [h]
    rfl

/-- Two rules read items side by side, however much fuel they have, as long as it is enough
for the tokens that are left: each item takes one of them. -/
theorem steps_many {I : Nat → Stand → Prop} {starts : Option Token → Bool}
    {item item' : Production α} (hmono : ∀ k σ, I k σ → I (k + 1) σ)
    (hzero : ∀ σ, I 0 σ → starts σ.current = false)
    (hitem : ∀ k, k + 1 ≤ count → ∀ t, starts t = true →
      Steps (Facing (I (k + 1)) t) item item' (I k))
    {fuel fuel' : Nat} (hfuel : count ≤ fuel) (hfuel' : count ≤ fuel') :
    Steps (I count) (many fuel starts item) (many fuel' starts item')
      (fun σ => I count σ ∧ starts σ.current = false) := by
  -- the bound on the tokens that are left goes down with each item, and the fuel with it
  suffices hfrom : ∀ k ≤ count, ∀ fuel fuel', k ≤ fuel → k ≤ fuel' → ∀ read,
      Steps (I k) (manyFrom starts item fuel read) (manyFrom starts item' fuel' read)
        (fun σ => I k σ ∧ starts σ.current = false) from
    hfrom count (Nat.le_refl _) fuel fuel' hfuel hfuel' []
  intro k
  induction k with
  | zero =>
    intro _ fuel fuel' _ _ read σ hσ
    have hend := hzero σ hσ
    exact .of_seen (seen_manyFrom hend item fuel read) (seen_manyFrom hend item' fuel' read)
      ⟨hσ, hend⟩
  | succ k ih =>
    intro hk fuel fuel' hfuel hfuel' read σ hσ
    cases hstarts : starts σ.current with
    | false =>
      exact .of_seen (seen_manyFrom hstarts item fuel read)
        (seen_manyFrom hstarts item' fuel' read) ⟨hσ, hstarts⟩
    | true =>
      obtain ⟨fuel, rfl⟩ := Nat.exists_eq_add_one_of_ne_zero (by omega : fuel ≠ 0)
      obtain ⟨fuel', rfl⟩ := Nat.exists_eq_add_one_of_ne_zero (by omega : fuel' ≠ 0)
      refine .current ?_
      rw [if_pos hstarts, if_pos hstarts]
      have hrest (x : α) := ih (by omega) fuel fuel' (by omega) (by omega) (x :: read)
      refine (((hitem k hk _ hstarts).bind hrest) σ ⟨hσ, rfl⟩).mono ?_
      rintro - τ ⟨hτ, hend⟩
      exact ⟨hmono k τ hτ, hend⟩

/-- Items that each take a token, as long as one may begin. -/
theorem steps_manyAt {starts : Option Token → Bool} (hnone : starts none = false)
    {item item' : Production α}
    (hitem : ∀ k, k + 1 ≤ count → ∀ t, starts t = true →
      Steps (Facing (At depth (k + 1)) t) item item' (At depth k))
    {fuel fuel' : Nat} (hfuel : count ≤ fuel) (hfuel' : count ≤ fuel') :
    Steps (At depth count) (many fuel starts item) (many fuel' starts item')
      (fun σ => At depth count σ ∧ starts σ.current = false) := by
  refine steps_many (fun k σ h => h.mono (Nat.le_succ k)) ?_ hitem hfuel hfuel'
  intro σ hσ
  cases hcur : σ.current with
  | none => exact hnone
  | some t =>
    have := (hσ.here t hcur).1
    have := hσ.left
    omega

end

end Document

end SchemaCatalog
