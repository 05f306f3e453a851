/-
# What rules come to

A rule makes its result of the tokens that it looks at, and of nothing else.  So a condition
on the result is stated together with one on the tokens, and both are carried along the rule
from one request to the next.
-/
import SchemaCatalog.Proofs.Feeding

namespace SchemaCatalog

open Lexeme (Kind)

namespace Rule

variable {ε α β : Type} {heard : Token → Prop} {P : α → Prop} {Q : β → Prop} {r : Rule ε α}

/-- Whatever a rule reads of tokens that satisfy one condition, its result satisfies
another. -/
def EnsuresFrom (heard : Token → Prop) (P : α → Prop) : Rule ε α → Prop
  | done a => P a
  | fail _ => True
  | look go | lookPast go => ∀ t : Option Token, (∀ u, t = some u → heard u) →
      (go t).EnsuresFrom heard P
  | take go => go.EnsuresFrom heard P

/-! ## Running -/

/-- What is passed over holds nothing that was not there. -/
theorem mem_of_settleKinds {ks ahead : List Kind} (h : settleKinds ks = some ahead) :
    ahead ⊆ ks := by
  induction ks with
  | nil =>
    cases h
    exact List.Subset.refl _
  | cons k ks ih =>
    cases k with
    | blank | comma => exact List.subset_cons_of_subset _ (ih h)
    | token | stray =>
      cases h
      exact List.Subset.refl _
    | flaw m => cases h

/-- The current token is among the tokens that lie ahead. -/
theorem mem_of_headKind {ks : List Kind} {t : Token} (h : headKind ks = some t) :
    .token t ∈ ks := by
  unfold headKind at h
  split at h
  · cases h
    exact List.mem_cons_self
  · cases h

/-- The token past the current one is among the tokens that lie ahead. -/
theorem mem_of_kindPast {ks : List Kind} {t : Token} (h : kindPast ks = some t) :
    .token t ∈ ks := by
  induction ks with
  | nil => cases h
  | cons k ks ih =>
    cases k with
    | token u =>
      cases h
      exact List.mem_cons_self
    | blank | flaw | stray => exact List.mem_cons_of_mem _ (ih h)
    | comma => cases h

/-- **Running.**  What is read of some kinds comes from the tokens among them. -/
theorem EnsuresFrom.runKinds (h : r.EnsuresFrom heard P) {ks rest : List Kind} {a : α}
    (hks : ∀ t, .token t ∈ ks → heard t) (hrun : r.runKinds ks = some (a, rest)) : P a := by
  induction r generalizing ks with
  | done b =>
    cases hrun
    exact h
  | fail m => cases hrun
  | look go ih =>
    exact ih _ (h _ fun u hu => hks u (mem_of_headKind hu)) hks hrun
  | lookPast go ih =>
    exact ih _ (h _ fun u hu => hks u (List.mem_of_mem_tail (mem_of_kindPast hu))) hks hrun
  | take go ih =>
    obtain ⟨ahead, hsettle, hrun⟩ := Option.bind_eq_some_iff.1 hrun
    refine ih h (fun t ht => hks t ?_) hrun
    exact List.mem_of_mem_tail (mem_of_settleKinds hsettle ht)

/-- What a rule ensures of tokens that are heard holds of what it makes of a text whose tokens all
are. -/
theorem EnsuresFrom.feed (h : r.EnsuresFrom heard P) {ks rest : List Kind} {a : α}
    (hks : ∀ t, .token t ∈ ks → heard t) (hfeed : r.feed ks = some (a, rest)) : P a := by
  obtain ⟨ahead, hsettle, hrun⟩ := Option.bind_eq_some_iff.1 hfeed
  exact h.runKinds (fun t ht => hks t (mem_of_settleKinds hsettle ht)) hrun

/-! ## Composing -/

/-- One rule after the other. -/
theorem EnsuresFrom.bind (h : r.EnsuresFrom heard P) {f : α → Rule ε β}
    (hf : ∀ a, P a → (f a).EnsuresFrom heard Q) : (r >>= f).EnsuresFrom heard Q := by
  induction r with
  | done a => exact hf a h
  | fail m => trivial
  | look go ih => exact fun t ht => ih t (h t ht)
  | lookPast go ih => exact fun t ht => ih t (h t ht)
  | take go ih => exact ih h

/-- What is known of the result may not matter. -/
theorem EnsuresFrom.then (r : Rule ε α) {f : α → Rule ε β}
    (hf : ∀ a, (f a).EnsuresFrom heard Q) : (r >>= f).EnsuresFrom heard Q := by
  have h : r.EnsuresFrom heard fun _ => True := by
    induction r with
    | done | fail => trivial
    | look go ih | lookPast go ih => exact fun t _ => ih t
    | take go ih => exact ih
  exact h.bind fun a _ => hf a

theorem EnsuresFrom.mono {P' : α → Prop} (h : r.EnsuresFrom heard P) (hP : ∀ a, P a → P' a) :
    r.EnsuresFrom heard P' := by
  have := h.bind fun a ha => show (pure a : Rule ε α).EnsuresFrom heard P' from hP a ha
  rwa [show r >>= pure = r from bind_done r] at this

theorem ensuresFrom_pure {a : α} (h : P a) : (pure a : Rule ε α).EnsuresFrom heard P := h

theorem ensuresFrom_fail (m : ε) : (fail m : Rule ε α).EnsuresFrom heard P := trivial

/-- The current token is heard. -/
theorem ensuresFrom_current {f : Option Token → Rule ε β}
    (hf : ∀ t : Option Token, (∀ u, t = some u → heard u) → (f t).EnsuresFrom heard Q) :
    (current >>= f).EnsuresFrom heard Q := hf

/-- By induction on the fuel: the items that were read and each that is read have the property. -/
theorem ensuresFrom_manyFrom (h : r.EnsuresFrom heard P) (starts : Option Token → Bool)
    (fuel : Nat) {read : List α} (hread : ∀ x ∈ read, P x) :
    (manyFrom starts r fuel read).EnsuresFrom heard fun xs => ∀ x ∈ xs, P x := by
  have hdone : ∀ {read : List α}, (∀ x ∈ read, P x) →
      (pure read.reverse : Rule ε (List α)).EnsuresFrom heard fun xs => ∀ x ∈ xs, P x :=
    fun hread => ensuresFrom_pure fun x hx => hread x (List.mem_reverse.1 hx)
  induction fuel generalizing read with
  | zero => exact hdone hread
  | succ fuel ih =>
    refine EnsuresFrom.then _ fun t => ?_
    split
    · exact h.bind fun x hx => ih (List.forall_mem_cons.2 ⟨hx, hread⟩)
    · exact hdone hread

/-- Each of some items in a row. -/
theorem ensuresFrom_many (h : r.EnsuresFrom heard P) (starts : Option Token → Bool) (fuel : Nat) :
    (many fuel starts r).EnsuresFrom heard fun xs => ∀ x ∈ xs, P x :=
  ensuresFrom_manyFrom h starts fuel fun _ hx => absurd hx List.not_mem_nil

/-- Items between marks have the property that each item has. -/
theorem ensuresFrom_separated (h : r.EnsuresFrom heard P) (m : Mark) (fuel : Nat) :
    (separated fuel m r).EnsuresFrom heard fun xs => ∀ x ∈ xs, P x := by
  refine h.bind fun first hfirst => ?_
  refine (ensuresFrom_many (EnsuresFrom.then _ fun _ => h) _ fuel).bind fun others hothers => ?_
  exact ensuresFrom_pure (List.forall_mem_cons.2 ⟨hfirst, hothers⟩)

/-- A name that is read is heard. -/
theorem ensuresFrom_nameOr (m : ε) :
    (nameOr m : Rule ε Name).EnsuresFrom heard fun n => heard (.name n) := by
  refine ensuresFrom_current fun t ht => ?_
  split
  · exact EnsuresFrom.then _ fun _ => ensuresFrom_pure (ht _ rfl)
  · exact ensuresFrom_fail m

end Rule

end SchemaCatalog
