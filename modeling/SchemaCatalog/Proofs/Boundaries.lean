/-
# Where lexemes end

A lexeme ends before the first character that its last state refuses.  So lexemes can be
taken apart and put together again, as long as each is followed by a character that ends
it: what stands further on does not matter.
-/
import SchemaCatalog.Proofs.Spelling

namespace SchemaCatalog

open Lexeme (join)

namespace Scanner

variable {S : Scanner}

/-- Lexemes that are told apart where one is followed by the next and the last one by a given
text. -/
inductive Bounded (S : Scanner) : List Lexeme → List Char → Prop where
  | nil (rest : List Char) : Bounded S [] rest
  | cons {c : Char} {cs : List Char} {st : S.State} {ls : List Lexeme} {rest : List Char}
      (walk : S.walk (S.start c) cs = some st)
      (stops : ∀ d ∈ (join ls ++ rest).head?, S.next st d = none) (tail : Bounded S ls rest) :
      Bounded S (⟨c :: cs, S.finish st (c :: cs)⟩ :: ls) rest

/-- Bounded lexemes are scanned as they are. -/
theorem Bounded.scan_eq {ls : List Lexeme} {rest : List Char} (h : S.Bounded ls rest) :
    S.scan (join ls ++ rest) = ls ++ S.scan rest := by
  induction h with
  | nil rest => rfl
  | cons walk stops tail ih =>
    rw [Lexeme.join_cons, List.append_assoc, S.scan_append walk stops, ih, List.cons_append]

/-- A lexeme is what its text is in the state in which it ends. -/
theorem Bounded.exists_finish {ls : List Lexeme} {rest : List Char} (h : S.Bounded ls rest)
    {l : Lexeme} (hl : l ∈ ls) : ∃ st, l.kind = S.finish st l.text := by
  induction h with
  | nil rest => cases hl
  | cons walk stops tail ih =>
    rcases List.mem_cons.1 hl with rfl | hl
    · exact ⟨_, rfl⟩
    · exact ih hl

/-- The lexemes of a text are bounded. -/
theorem bounded_scanFrom (st : S.State) (c : Char) (read cs : List Char)
    (h : S.walk (S.start c) read = some st) :
    S.Bounded (S.scanFrom st (read.reverse ++ [c]) cs) [] := by
  -- `read` is what the lexeme has so far, but for its first character
  induction cs generalizing st c read with
  | nil =>
    have hclose : S.close st (read.reverse ++ [c]) = ⟨c :: read, S.finish st (c :: read)⟩ := by
      simp [close]
    rw [scanFrom, hclose]
    refine .cons h ?_ (.nil [])
    intro d hd
    cases hd
  | cons d cs ih =>
    rw [scanFrom]
    split
    · next st' hnext =>
      have hwalk : S.walk (S.start c) (read ++ [d]) = some st' := by
        rw [S.walk_append h, walk_cons, hnext]
        rfl
      have := ih st' c (read ++ [d]) hwalk
      rwa [List.reverse_append, List.reverse_singleton, List.singleton_append,
        List.cons_append] at this
    · next hnext =>
      have hclose : S.close st (read.reverse ++ [c]) = ⟨c :: read, S.finish st (c :: read)⟩ := by
        simp [close]
      rw [hclose]
      refine .cons h ?_ (ih (S.start d) d [] rfl)
      intro e he
      rw [List.append_nil, join_scanFrom] at he
      cases he
      exact hnext

theorem bounded_scan (cs : List Char) : S.Bounded (S.scan cs) [] := by
  cases cs with
  | nil => exact .nil []
  | cons c cs => exact bounded_scanFrom (S.start c) c [] cs rfl

theorem Bounded.tail {l : Lexeme} {ls : List Lexeme} {rest : List Char}
    (h : S.Bounded (l :: ls) rest) : S.Bounded ls rest := by
  cases h with
  | cons _ _ tail => exact tail

end Scanner

end SchemaCatalog
