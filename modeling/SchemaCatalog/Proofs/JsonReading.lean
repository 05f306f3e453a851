/-
# Reading the grammar of JSON

The reader is held against the grammar.  Words, numbers and strings are read exactly as they are
written, in both directions, and a value that is read is written for a tree that has it.
-/
import SchemaCatalog.Proofs.JsonTexts
import Mathlib.Data.List.TakeDrop

namespace SchemaCatalog.Json

open Text (hexFrom? hexDigit? isLeadingHalf isTrailingHalf joinHalves)

/-- A reading in two steps succeeds only if both steps do. -/
theorem exists_of_bind {ε α β : Type} {x : Except ε α} {f : α → Except ε β} {b : β}
    (h : x >>= f = .ok b) : ∃ a, x = .ok a ∧ f a = .ok b := by
  cases x with
  | error e => cases h
  | ok a => exact ⟨a, rfl, h⟩

/-! ## White space and words -/

theorem isSpace_nil : IsSpace [] := rfl

/-- White space is what is skipped before the next part of a value. -/
theorem exists_isSpace_append (cs : List Char) : ∃ ws, IsSpace ws ∧ cs = ws ++ skipBlank cs :=
  ⟨cs.takeWhile isBlank, List.all_takeWhile, List.takeWhile_append_dropWhile.symm⟩

/-- A word that is read stands at the start of the text. -/
theorem readWord_ok {α : Type} {result x : α} {word cs rest : List Char}
    (h : readWord result word cs = .ok (x, rest)) : x = result ∧ cs = word ++ rest := by
  induction word generalizing cs with
  | nil =>
    cases cs <;>
    · cases h
      exact ⟨rfl, rfl⟩
  | cons w ws ih =>
    cases cs with
    | nil => cases h
    | cons c cs =>
      rw [readWord] at h
      split at h
      · next heq =>
        obtain ⟨hx, hcs⟩ := ih h
        exact ⟨hx, by rw [heq, hcs, List.cons_append]⟩
      · cases h

/-! ## Numbers -/

/-- Whether a text may follow a number: it starts with nothing that would belong to it. -/
def Ends (rest : List Char) : Prop :=
  ∀ c, rest.head? = some c → c.isDigit = false ∧ c ≠ '.' ∧ c ≠ 'e' ∧ c ≠ 'E'

/-- No digit follows a number. -/
theorem Ends.not_digit {rest : List Char} (h : Ends rest) :
    rest.head?.any Char.isDigit = false := by
  cases hc : rest.head? with
  | none => rfl
  | some c => exact (h c hc).1

/-- Behind a value stands the end of the text, white space, or the end of the part. -/
theorem ends_of_isSpace {ws : List Char} (h : IsSpace ws) {rest : List Char} (hrest : Ends rest) :
    Ends (ws ++ rest) := by
  cases ws with
  | nil => exact hrest
  | cons b bs =>
    intro c hc
    rw [List.cons_append, List.head?_cons, Option.some.injEq] at hc
    subst hc
    have hb : isBlank b = true := List.all_eq_true.1 h b (List.mem_cons_self ..)
    simp only [isBlank, Bool.or_eq_true, beq_iff_eq] at hb
    rcases hb with ((rfl | rfl) | rfl) | rfl <;> decide

theorem ends_nil : Ends [] := by
  rintro c ⟨⟩

/-- A number may be followed by what follows an item or a member. -/
theorem ends_cons {c : Char} (h : c = ',' ∨ c = ']' ∨ c = '}') (rest : List Char) :
    Ends (c :: rest) := by
  rintro d ⟨⟩
  rcases h with rfl | rfl | rfl <;> decide

/-- Digits that are read are the first characters of the text, and there is one. -/
theorem readDigits_ok {cs ds rest : List Char} (h : readDigits cs = .ok (ds, rest)) :
    cs = ds ++ rest ∧ IsDigits ds := by
  rw [readDigits] at h
  split at h
  · next hhead =>
    rw [spanDigits, List.span_eq_takeWhile_dropWhile] at h
    cases h
    refine ⟨List.takeWhile_append_dropWhile.symm, ?_, ?_⟩
    · cases cs with
      | nil => cases hhead
      | cons c cs =>
        rw [List.head?_cons, Option.any_some] at hhead
        rw [List.takeWhile_cons_of_pos hhead]
        exact List.cons_ne_nil _ _
    · exact List.all_eq_true.1 List.all_takeWhile
  · rw [refuseOrEnd] at h
    split at h <;> cases h

/-- Digits are read up to the first character that is none. -/
theorem readDigits_append {ds rest : List Char} (h : IsDigits ds)
    (hrest : rest.head?.any Char.isDigit = false) : readDigits (ds ++ rest) = .ok (ds, rest) := by
  have hstop : rest.takeWhile Char.isDigit = [] ∧ rest.dropWhile Char.isDigit = rest := by
    cases rest with
    | nil => exact ⟨rfl, rfl⟩
    | cons c cs =>
      rw [List.head?_cons, Option.any_some] at hrest
      rw [List.takeWhile_cons_of_neg (by rw [hrest]; decide),
        List.dropWhile_cons_of_neg (by rw [hrest]; decide)]
      exact ⟨rfl, rfl⟩
  have hhead : (ds ++ rest).head?.any Char.isDigit = true := by
    obtain ⟨d, ds', rfl⟩ := List.exists_cons_of_ne_nil h.ne_nil
    exact h.isDigit d (List.mem_cons_self ..)
  rw [readDigits, if_pos hhead, spanDigits, List.span_eq_takeWhile_dropWhile,
    List.takeWhile_append_of_pos h.isDigit, List.dropWhile_append_of_pos h.isDigit, hstop.1,
    hstop.2, List.append_nil]

/-- What is read as a whole number has no zero in front of other digits. -/
theorem readWhole_ok {cs whole rest : List Char} (h : readWhole cs = .ok (whole, rest)) :
    cs = whole ++ rest ∧ IsWhole whole := by
  rw [readWhole.eq_def] at h
  split at h
  · next rest' =>
    split at h
    · cases h
    · cases h
      exact ⟨rfl, .zero⟩
  · next hzero =>
    obtain ⟨rfl, hdigits⟩ := readDigits_ok h
    obtain ⟨d, ds, rfl⟩ := List.exists_cons_of_ne_nil hdigits.ne_nil
    exact ⟨rfl, .digits hdigits fun hd => hzero (ds ++ rest) (by rw [hd]; rfl)⟩

/-- A whole number is read up to the first character that is no digit. -/
theorem readWhole_append {whole rest : List Char} (h : IsWhole whole)
    (hrest : rest.head?.any Char.isDigit = false) :
    readWhole (whole ++ rest) = .ok (whole, rest) := by
  cases h with
  | zero => rw [List.singleton_append, readWhole, hrest, if_neg Bool.false_ne_true]
  | @digits d ds hdigits hne =>
    rw [List.cons_append, readWhole.eq_def]
    split
    · next heq =>
      cases heq
      exact absurd rfl hne
    · exact readDigits_append hdigits hrest

/-- A fraction that is read is missing, or a point with digits behind it. -/
theorem readFraction_ok {cs fraction rest : List Char}
    (h : readFraction cs = .ok (fraction, rest)) : cs = fraction ++ rest ∧ IsFraction fraction := by
  rw [readFraction.eq_def] at h
  split at h
  · next rest' =>
    obtain ⟨⟨ds, rest''⟩, hdigits, h⟩ := exists_of_bind h
    cases h
    obtain ⟨rfl, hds⟩ := readDigits_ok hdigits
    exact ⟨rfl, .digits hds⟩
  · cases h
    exact ⟨rfl, .nothing⟩

/-- Whether a text starts with an exponent. -/
def StartsExponent (cs : List Char) : Prop :=
  ∃ mark rest, (mark = 'e' ∨ mark = 'E') ∧ cs = mark :: rest

/-- No digit follows a fraction. -/
theorem not_digit_of_startsExponent {rest : List Char} (h : Ends rest ∨ StartsExponent rest) :
    rest.head?.any Char.isDigit = false := by
  rcases h with hends | ⟨mark, cs, rfl | rfl, rfl⟩
  · exact hends.not_digit
  · rfl
  · rfl

/-- A fraction is read up to an exponent, or up to what ends the number. -/
theorem readFraction_append {fraction rest : List Char} (h : IsFraction fraction)
    (hrest : Ends rest ∨ StartsExponent rest) :
    readFraction (fraction ++ rest) = .ok (fraction, rest) := by
  have hdot : ∀ cs, rest ≠ '.' :: cs := by
    rintro cs rfl
    rcases hrest with hends | ⟨mark, cs', hmark, heq⟩
    · exact (hends '.' rfl).2.1 rfl
    · cases heq
      revert hmark
      decide
  have hdigit := not_digit_of_startsExponent hrest
  cases h with
  | nothing =>
    rw [List.nil_append, readFraction.eq_def]
    split
    · next cs => exact absurd rfl (hdot cs)
    · rfl
  | digits hdigits =>
    rw [List.cons_append, readFraction, readDigits_append hdigits hdigit]
    rfl

/-- The sign of an exponent, and what follows it. -/
theorem exists_sign (cs : List Char) :
    ∃ sign rest, cs = sign ++ rest ∧ (sign = [] ∨ sign = ['+'] ∨ sign = ['-']) ∧
      (if cs.head? == some '+' || cs.head? == some '-' then (cs.take 1, cs.drop 1) else ([], cs)) =
        (sign, rest) := by
  split
  · next h =>
    cases cs with
    | nil => cases h
    | cons c cs =>
      simp only [List.head?_cons, Bool.or_eq_true, beq_iff_eq, Option.some.injEq] at h
      exact ⟨[c], cs, rfl, by simpa using h, rfl⟩
  · exact ⟨[], cs, rfl, Or.inl rfl, rfl⟩

/-- An exponent that is read is missing, or a letter with digits behind it and a sign between
them. -/
theorem readExponent_ok {cs exponent rest : List Char}
    (h : readExponent cs = .ok (exponent, rest)) : cs = exponent ++ rest ∧ IsExponent exponent := by
  rw [readExponent.eq_def] at h
  split at h
  · next c cs =>
    split at h
    · next hmark =>
      obtain ⟨sign, rest', rfl, hsign, heq⟩ := exists_sign cs
      simp only [heq] at h
      obtain ⟨⟨ds, rest''⟩, hdigits, h⟩ := exists_of_bind h
      cases h
      obtain ⟨rfl, hds⟩ := readDigits_ok hdigits
      rw [Bool.or_eq_true, beq_iff_eq, beq_iff_eq] at hmark
      exact ⟨by simp, .digits hmark hsign hds⟩
    · cases h
      exact ⟨rfl, .nothing⟩
  · cases h
    exact ⟨rfl, .nothing⟩

/-- An exponent is read up to what ends the number. -/
theorem readExponent_append {exponent rest : List Char} (h : IsExponent exponent)
    (hrest : Ends rest) : readExponent (exponent ++ rest) = .ok (exponent, rest) := by
  cases h with
  | nothing =>
    rw [List.nil_append, readExponent.eq_def]
    split
    · next c cs =>
      have hc := hrest c rfl
      rw [if_neg (by simp [hc.2.2.1, hc.2.2.2])]
    · rfl
  | @digits mark sign ds hmark hsign hdigits =>
    have hmark' : (mark == 'e' || mark == 'E') = true := by simpa using hmark
    rw [List.cons_append, readExponent, if_pos hmark', List.append_assoc]
    have hread := readDigits_append hdigits hrest.not_digit
    obtain ⟨d, ds', rfl⟩ := List.exists_cons_of_ne_nil hdigits.ne_nil
    have hd := hdigits.isDigit d (List.mem_cons_self ..)
    rcases hsign with rfl | rfl | rfl
    · have hplain : (((d :: ds') ++ rest).head? == some '+' ||
          ((d :: ds') ++ rest).head? == some '-') = false := by
        rw [List.cons_append, List.head?_cons]
        rw [Bool.or_eq_false_iff, beq_eq_false_iff_ne, beq_eq_false_iff_ne]
        refine ⟨?_, ?_⟩ <;>
        · rintro ⟨⟩
          cases hd
      simp only [List.nil_append, hplain, Bool.false_eq_true, if_false, hread]
      rfl
    · simp only [List.cons_append, List.nil_append] at hread ⊢
      simp [hread]
      rfl
    · simp only [List.cons_append, List.nil_append] at hread ⊢
      simp [hread]
      rfl

/-- A number that is read is written as the grammar has it, and within the range. -/
theorem readNumber_ok {cs rest : List Char} {v : Json} (h : readNumber cs = .ok (v, rest)) :
    ∃ text, cs = text ++ rest ∧ IsNumber text ∧
      (NumberParts.ofChars text).value?.isSome = true ∧ v = .number (String.ofList text) := by
  obtain ⟨sign, unsigned, hcs, hsign, heq⟩ : ∃ sign unsigned, cs = sign ++ unsigned ∧
      (sign = [] ∨ sign = ['-']) ∧
      (if cs.head? = some '-' then (['-'], cs.drop 1) else ([], cs)) = (sign, unsigned) := by
    split
    · next hminus =>
      obtain ⟨cs', rfl⟩ := List.head?_eq_some_iff.1 hminus
      exact ⟨['-'], cs', rfl, Or.inr rfl, rfl⟩
    · exact ⟨[], cs, rfl, Or.inl rfl, rfl⟩
  simp only [readNumber, heq] at h
  obtain ⟨⟨whole, rest₁⟩, hwhole, h⟩ := exists_of_bind h
  obtain ⟨⟨fraction, rest₂⟩, hfraction, h⟩ := exists_of_bind h
  obtain ⟨⟨exponent, rest₃⟩, hexponent, h⟩ := exists_of_bind h
  simp only at h
  split at h
  · next hvalue =>
    cases h
    obtain ⟨rfl, hwhole'⟩ := readWhole_ok hwhole
    obtain ⟨rfl, hfraction'⟩ := readFraction_ok hfraction
    obtain ⟨rfl, hexponent'⟩ := readExponent_ok hexponent
    exact ⟨sign ++ whole ++ fraction ++ exponent, by simp [hcs],
      .parts hsign hwhole' hfraction' hexponent', hvalue, rfl⟩
  · cases h

/-- Behind a fraction the number ends or has an exponent. -/
theorem IsExponent.append {exponent rest : List Char} (h : IsExponent exponent)
    (hrest : Ends rest) : Ends (exponent ++ rest) ∨ StartsExponent (exponent ++ rest) := by
  cases h with
  | nothing => exact Or.inl hrest
  | digits hmark => exact Or.inr ⟨_, _, hmark, rfl⟩

/-- Behind a whole number stands no digit, whether a fraction follows or not. -/
theorem IsFraction.not_digit {fraction rest : List Char} (h : IsFraction fraction)
    (hrest : rest.head?.any Char.isDigit = false) :
    (fraction ++ rest).head?.any Char.isDigit = false := by
  cases h with
  | nothing => exact hrest
  | digits => rfl

/-- A number starts with a digit or a minus. -/
theorem IsWhole.exists_cons {whole : List Char} (h : IsWhole whole) :
    ∃ d ds, whole = d :: ds ∧ d.isDigit = true := by
  cases h with
  | zero => exact ⟨'0', [], rfl, rfl⟩
  | digits h => exact ⟨_, _, rfl, h.isDigit _ (List.mem_cons_self ..)⟩

/-- A number of the grammar is read if it is within the range. -/
theorem readNumber_append {text rest : List Char} (h : IsNumber text)
    (hvalue : (NumberParts.ofChars text).value?.isSome = true) (hrest : Ends rest) :
    readNumber (text ++ rest) = .ok (.number (String.ofList text), rest) := by
  cases h with
  | @parts sign whole fraction exponent hsign hwhole hfraction hexponent =>
  have hbehind := hexponent.append hrest
  have hreads₁ := readWhole_append hwhole
    (hfraction.not_digit (not_digit_of_startsExponent hbehind))
  have hreads₂ := readFraction_append hfraction hbehind
  have hreads₃ := readExponent_append hexponent hrest
  have hcut : (if (sign ++ whole ++ fraction ++ exponent ++ rest).head? = some '-' then
      (['-'], (sign ++ whole ++ fraction ++ exponent ++ rest).drop 1)
      else ([], sign ++ whole ++ fraction ++ exponent ++ rest)) =
      (sign, whole ++ (fraction ++ (exponent ++ rest))) := by
    rcases hsign with rfl | rfl
    · obtain ⟨d, ds, rfl, hd⟩ := hwhole.exists_cons
      rw [if_neg]
      · simp
      · rintro ⟨⟩
        cases hd
    · simp
  simp only [readNumber, hcut, bind, Except.bind, hreads₁, hreads₂, hreads₃, hvalue, if_true]

/-! ## Strings -/

/-- A number in hexadecimal consists of digits. -/
theorem hexDigit?_isSome_of_hexFrom? {value n : Nat} {cs : List Char}
    (h : hexFrom? value cs = some n) : ∀ c ∈ cs, (hexDigit? c).isSome := by
  induction cs generalizing value with
  | nil => simp
  | cons c cs ih =>
    rw [hexFrom?] at h
    split at h
    · next d hd => exact List.forall_mem_cons.2 ⟨by rw [hd]; rfl, ih h⟩
    · cases h

/-- Hexadecimal digits make up a number. -/
theorem exists_hexFrom?_eq (value : Nat) {cs : List Char} (h : ∀ c ∈ cs, (hexDigit? c).isSome) :
    ∃ n, hexFrom? value cs = some n := by
  induction cs generalizing value with
  | nil => exact ⟨value, rfl⟩
  | cons c cs ih =>
    rw [List.forall_mem_cons] at h
    obtain ⟨d, hd⟩ := Option.isSome_iff_exists.1 h.1
    rw [hexFrom?, hd]
    exact ih _ h.2

/-- The value of an escape with four digits is the number that they make up. -/
theorem unitValue_eq {a b c d : Char} {n : Nat} (h : hexFrom? 0 [a, b, c, d] = some n) :
    unitValue a b c d = n := by
  rw [unitValue, h, Option.getD_some]

/-- Four proper digits make up the value of the escape. -/
theorem hexFrom?_eq_unitValue {a b c d : Char} (h : (Piece.unit a b c d).IsProper) :
    hexFrom? 0 [a, b, c, d] = some (unitValue a b c d) := by
  cases h with
  | unit h =>
    obtain ⟨n, hn⟩ := exists_hexFrom?_eq 0 h
    rw [unitValue_eq hn, hn]

/-- An escape of one letter has one of eight letters. -/
theorem mem_of_simpleEscape? {c d : Char} (h : simpleEscape? c = some d) :
    c ∈ ['"', '\\', '/', 'b', 'f', 'n', 'r', 't'] := by
  unfold simpleEscape? at h
  split at h <;> first | decide | cases h

/-- A character that is put in front of a string that is read leaves what follows it. -/
theorem consRead_ok {c : Char} {r : Reading (List Char × List Char)} {s rest : List Char}
    (h : consRead c r = .ok (s, rest)) : ∃ s', r = .ok (s', rest) ∧ s = c :: s' := by
  rw [consRead.eq_def] at h
  split at h
  · cases h
    exact ⟨_, rfl, rfl⟩
  · cases h

/-- A string that is read is written in pieces that stand for its characters. -/
theorem readChars_ok {cs s rest : List Char} (h : readChars cs = .ok (s, rest)) :
    ∃ ps, (∀ p ∈ ps, Piece.IsProper p) ∧ cs = ps.flatMap Piece.chars ++ '"' :: rest ∧
      text? ps = some s := by
  fun_induction readChars cs generalizing s with
  -- one case for each way a piece is read: the closing quote, a pair of units, a unit of its
  -- own, an escaped letter and a plain character; the other branches refuse
  | case2 rest' =>
    cases h
    exact ⟨[], by simp, rfl, rfl⟩
  | case6 a b c d n hn htrail hlead e f g k rest' m hm htrail' ih =>
    obtain ⟨s', hs', rfl⟩ := consRead_ok h
    obtain ⟨ps, hps, rfl, htext⟩ := ih hs'
    refine ⟨.unit a b c d :: .unit e f g k :: ps, ?_, rfl, ?_⟩
    · exact List.forall_mem_cons.2 ⟨.unit (hexDigit?_isSome_of_hexFrom? hn),
        List.forall_mem_cons.2 ⟨.unit (hexDigit?_isSome_of_hexFrom? hm), hps⟩⟩
    · rw [text?, unitValue_eq hn, unitValue_eq hm, if_neg htrail, if_pos hlead, if_pos htrail',
        htext]
      rfl
  | case11 a b c d rest' n hn htrail hlead ih =>
    obtain ⟨s', hs', rfl⟩ := consRead_ok h
    obtain ⟨ps, hps, rfl, htext⟩ := ih hs'
    refine ⟨.unit a b c d :: ps, ?_, rfl, ?_⟩
    · exact List.forall_mem_cons.2 ⟨.unit (hexDigit?_isSome_of_hexFrom? hn), hps⟩
    · rw [text?.eq_def]
      simp only [unitValue_eq hn, if_neg htrail, if_neg hlead, htext]
      rfl
  | case13 c rest' _ _ d hd ih =>
    obtain ⟨s', hs', rfl⟩ := consRead_ok h
    obtain ⟨ps, hps, rfl, htext⟩ := ih hs'
    refine ⟨.letter c :: ps, ?_, rfl, ?_⟩
    · exact List.forall_mem_cons.2 ⟨.letter (mem_of_simpleEscape? hd), hps⟩
    · rw [text?, hd, htext]
      rfl
  | case17 c rest' hquote _ _ _ hlow hslash ih =>
    obtain ⟨s', hs', rfl⟩ := consRead_ok h
    obtain ⟨ps, hps, rfl, htext⟩ := ih hs'
    refine ⟨.plain c :: ps, ?_, rfl, ?_⟩
    · exact List.forall_mem_cons.2 ⟨.plain (Nat.not_lt.1 hlow) hquote hslash, hps⟩
    · rw [text?, htext]
      rfl
  | case3 | case5 | case8 | case12 =>
    rw [refuseDigits] at h
    split at h <;> cases h
  | case9 | case10 =>
    rw [refuseOrEnd] at h
    split at h <;> cases h
  | _ => cases h

/-- A string is read from the pieces it is written in. -/
theorem readChars_append {ps : List Piece} (hps : ∀ p ∈ ps, p.IsProper) {s : List Char}
    (h : text? ps = some s) (rest : List Char) :
    readChars (ps.flatMap Piece.chars ++ '"' :: rest) = .ok (s, rest) := by
  fun_induction text? ps generalizing s with
  | case1 =>
    cases h
    rfl
  | case2 c ps ih =>
    rw [List.forall_mem_cons] at hps
    obtain ⟨s', hs', rfl⟩ := Option.map_eq_some_iff.1 h
    obtain ⟨low, quote, slash⟩ := hps.1
    change readChars (c :: (ps.flatMap Piece.chars ++ '"' :: rest)) = _
    rw [readChars_plain quote slash (Nat.not_lt.2 low), ih hps.2 hs']
    rfl
  | case3 c ps ih =>
    rw [List.forall_mem_cons] at hps
    obtain ⟨d, hd, h⟩ := Option.bind_eq_some_iff.1 h
    obtain ⟨s', hs', rfl⟩ := Option.map_eq_some_iff.1 h
    have hletter : readChars ('\\' :: c :: (ps.flatMap Piece.chars ++ '"' :: rest)) =
        consRead d (readChars (ps.flatMap Piece.chars ++ '"' :: rest)) := by
      have hmem := mem_of_simpleEscape? hd
      simp only [List.mem_cons, List.not_mem_nil, or_false] at hmem
      rcases hmem with rfl | rfl | rfl | rfl | rfl | rfl | rfl | rfl <;>
      · cases hd
        rfl
    exact hletter.trans (by rw [ih hps.2 hs']; rfl)
  -- two units of one character here, a unit of its own in the next case
  | case5 a b c d htrail hlead e f g k ps htrail' ih =>
    obtain ⟨hfirst, hps⟩ := List.forall_mem_cons.1 hps
    obtain ⟨hsecond, hps⟩ := List.forall_mem_cons.1 hps
    obtain ⟨s', hs', rfl⟩ := Option.map_eq_some_iff.1 h
    change readChars ('\\' :: 'u' :: a :: b :: c :: d :: '\\' :: 'u' :: e :: f :: g :: k ::
      (ps.flatMap Piece.chars ++ '"' :: rest)) = _
    rw [readChars]
    simp only [hexFrom?_eq_unitValue hfirst, hexFrom?_eq_unitValue hsecond, if_neg htrail,
      if_pos hlead, if_pos htrail', ih hps hs']
    rfl
  | case8 a b c d ps htrail hlead ih =>
    obtain ⟨hfirst, hps⟩ := List.forall_mem_cons.1 hps
    obtain ⟨s', hs', rfl⟩ := Option.map_eq_some_iff.1 h
    change readChars ('\\' :: 'u' :: a :: b :: c :: d ::
      (ps.flatMap Piece.chars ++ '"' :: rest)) = _
    rw [readChars]
    simp only [hexFrom?_eq_unitValue hfirst, if_neg htrail, if_neg hlead, ih hps hs']
    rfl
  | _ => cases h

/-- A string that is read consists of proper pieces up to a quote, and is the text that they stand
for. -/
theorem readString_ok {cs rest : List Char} {s : String} (h : readString cs = .ok (s, rest)) :
    ∃ ps l, (∀ p ∈ ps, Piece.IsProper p) ∧ cs = ps.flatMap Piece.chars ++ '"' :: rest ∧
      text? ps = some l ∧ s = String.ofList l := by
  rw [readString] at h
  split at h
  · next l rest' hchars =>
    cases h
    obtain ⟨ps, hps, hcs, htext⟩ := readChars_ok hchars
    exact ⟨ps, l, hps, hcs, htext, rfl⟩
  · cases h

/-- Proper pieces that stand for a text are read as it, up to the quote. -/
theorem readString_append {ps : List Piece} (hps : ∀ p ∈ ps, p.IsProper) {l : List Char}
    (h : text? ps = some l) (rest : List Char) :
    readString (ps.flatMap Piece.chars ++ '"' :: rest) = .ok (String.ofList l, rest) := by
  rw [readString, readChars_append hps h]

theorem quotedPieces_append (ps : List Piece) (rest : List Char) :
    quotedPieces ps ++ rest = '"' :: (ps.flatMap Piece.chars ++ '"' :: rest) := by
  simp [quotedPieces]

/-- A key that is read is a string with a colon behind it. -/
theorem readKey_ok {cs rest : List Char} {key : String} (h : readKey cs = .ok (key, rest)) :
    ∃ ps l inner, (∀ p ∈ ps, Piece.IsProper p) ∧ IsSpace inner ∧
      cs = quotedPieces ps ++ (inner ++ ':' :: rest) ∧ text? ps = some l ∧
      key = String.ofList l := by
  rw [readKey.eq_def] at h
  split at h
  · next rest₁ =>
    obtain ⟨⟨key', rest₂⟩, hstring, h⟩ := exists_of_bind h
    obtain ⟨inner, hinner, hrest₂⟩ := exists_isSpace_append rest₂
    simp only at h
    split at h
    · next hcolon =>
      cases h
      obtain ⟨ps, l, hps, rfl, htext, rfl⟩ := readString_ok hstring
      exact ⟨ps, l, inner, hps, hinner, by rw [quotedPieces_append, ← hcolon, ← hrest₂], htext, rfl⟩
    · rw [refuseOrEnd] at h
      split at h <;> cases h
  · cases h

/-- White space is skipped up to the first other character. -/
theorem skipBlank_append_cons {ws : List Char} (hws : IsSpace ws) {c : Char}
    (hc : isBlank c = false) (cs : List Char) : skipBlank (ws ++ c :: cs) = c :: cs := by
  rw [skipBlank_append hws, skipBlank_cons hc]

/-- A key is read with the colon behind it and the white space between them. -/
theorem readKey_append {ps : List Piece} (hps : ∀ p ∈ ps, p.IsProper) {l : List Char}
    (h : text? ps = some l) {inner : List Char} (hinner : IsSpace inner) (rest : List Char) :
    readKey (quotedPieces ps ++ (inner ++ ':' :: rest)) = .ok (String.ofList l, rest) := by
  rw [quotedPieces_append, readKey, readString_append hps h]
  simp only [bind, Except.bind, skipBlank_append_cons hinner (show isBlank ':' = false by decide)]

/-! ## What is read is written -/

theorem IsSpace.append {ws ws' : List Char} (h : IsSpace ws) (h' : IsSpace ws') :
    IsSpace (ws ++ ws') := by
  rw [IsSpace, List.all_append, h, h']
  rfl

/-- White space may stand before items. -/
theorem WritesItems.space {ws cs : List Char} {ts : List Tree} (hws : IsSpace ws)
    (h : WritesItems ts cs) : WritesItems ts (ws ++ cs) := by
  cases h with
  | last hbefore h hbehind =>
    rw [← List.append_assoc]
    exact .last (hws.append hbefore) h hbehind
  | more hbefore h hbehind hothers =>
    rw [← List.append_assoc]
    exact .more (hws.append hbefore) h hbehind hothers

/-- White space may stand before members. -/
theorem WritesMembers.space {ws cs : List Char} {ms : List (List Piece × Tree)} (hws : IsSpace ws)
    (h : WritesMembers ms cs) : WritesMembers ms (ws ++ cs) := by
  cases h with
  | last houter hps hinner hbefore h hbehind =>
    rw [← List.append_assoc]
    exact .last (hws.append houter) hps hinner hbefore h hbehind
  | more houter hps hinner hbefore h hbehind hothers =>
    rw [← List.append_assoc]
    exact .more (hws.append houter) hps hinner hbefore h hbehind hothers

/-- Values that are read are written for trees that have them. -/
def ReadsValues (fuel : Nat) : Prop :=
  ∀ n cs v rest, readValue fuel n cs = .ok (v, rest) →
    ∃ ws t text, IsSpace ws ∧ cs = ws ++ (text ++ rest) ∧ Writes t text ∧ t.value? n = some v

/-- Items that are read are written for trees that have them. -/
def ReadsItems (fuel : Nat) : Prop :=
  ∀ n read cs v rest, readItems fuel n read cs = .ok (v, rest) →
    ∃ ts text vs, cs = text ++ ']' :: rest ∧ WritesItems ts text ∧ items? n ts = some vs ∧
      v = array (read.reverse ++ vs)

/-- Members that are read are written for trees that have them. -/
def ReadsMembers (fuel : Nat) : Prop :=
  ∀ n read cs v rest, readMembers fuel n read cs = .ok (v, rest) →
    ∃ ms text vs, cs = text ++ '}' :: rest ∧ WritesMembers ms text ∧
      members? n read ms = some vs ∧ v = object vs

theorem items?_singleton (n : Nat) (t : Tree) :
    items? n [t] = (t.value? n).map fun v => [v] := by
  rw [items?, items?]
  cases t.value? n <;> rfl

/-- One step for items: a value is read, and then the others or the end of the array. -/
theorem readsItems_succ {fuel : Nat} (hvalues : ReadsValues fuel) (hitems : ReadsItems fuel) :
    ReadsItems (fuel + 1) := by
  intro n read cs v rest h
  rw [readItems] at h
  obtain ⟨⟨w, rest₁⟩, hvalue, hread⟩ := exists_of_bind h
  obtain ⟨before, t, text, hbefore, rfl, htext, hw⟩ := hvalues _ _ _ _ hvalue
  obtain ⟨behind, hbehind, hrest₁⟩ := exists_isSpace_append rest₁
  simp only at hread
  split at hread
  · next rest₂ hcomma =>
    split at hread
    · cases hread
    · obtain ⟨ts, others, vs, hrest₂, hothers, hvs, rfl⟩ := hitems _ _ _ _ _ hread
      obtain ⟨ws, hws, hskip⟩ := exists_isSpace_append rest₂
      refine ⟨t :: ts, _, w :: vs, ?_, .more hbefore htext hbehind (hothers.space hws), ?_, ?_⟩
      · rw [hrest₁, hcomma, hskip, hrest₂]
        simp
      · rw [items?, hw, hvs]
        rfl
      · simp
  · next rest₂ hclose =>
    cases hread
    refine ⟨[t], before ++ (text ++ behind), [w], ?_, .last hbefore htext hbehind, ?_, ?_⟩
    · rw [hrest₁, hclose]
      simp
    · rw [items?_singleton, hw]
      rfl
    · simp
  · rw [refuseOrEnd] at hread
    split at hread <;> cases hread

/-- One step for members: a key and a value are read, and then the others or the end of the
object. -/
theorem readsMembers_succ {fuel : Nat} (hvalues : ReadsValues fuel)
    (hmembers : ReadsMembers fuel) : ReadsMembers (fuel + 1) := by
  intro n read cs v rest h
  rw [readMembers] at h
  obtain ⟨outer, houter, hcs⟩ := exists_isSpace_append cs
  obtain ⟨⟨key, rest₁⟩, hkey, h⟩ := exists_of_bind h
  obtain ⟨ps, l, inner, hps, hinner, hquoted, htext?, rfl⟩ := readKey_ok hkey
  obtain ⟨⟨w, rest₂⟩, hvalue, hread⟩ := exists_of_bind h
  obtain ⟨before, t, text, hbefore, rfl, htext, hw⟩ := hvalues _ _ _ _ hvalue
  obtain ⟨behind, hbehind, hrest₂⟩ := exists_isSpace_append rest₂
  simp only at hread
  split at hread
  · next rest₃ hcomma =>
    split at hread
    · cases hread
    · cases hread
    · obtain ⟨ms, others, vs, hrest₃, hothers, hvs, rfl⟩ := hmembers _ _ _ _ _ hread
      obtain ⟨ws, hws, hskip⟩ := exists_isSpace_append rest₃
      refine ⟨(ps, t) :: ms, _, vs, ?_,
        .more houter hps hinner hbefore htext hbehind (hothers.space hws), ?_, rfl⟩
      · rw [hcs, hquoted, hrest₂, hcomma, hskip, hrest₃]
        simp
      · rw [members?, htext?, Option.bind_some, hw, Option.bind_some, hvs]
  · next rest₃ hclose =>
    cases hread
    refine ⟨[(ps, t)], _, _, ?_, .last houter hps hinner hbefore htext hbehind, ?_, rfl⟩
    · rw [hcs, hquoted, hrest₂, hclose]
      simp
    · rw [members?, htext?, Option.bind_some, hw, Option.bind_some, members?]
  · rw [refuseOrEnd] at hread
    split at hread <;> cases hread

/-- Behind a bracket that opens stand the items of an array, or none. -/
theorem reads_array {fuel n : Nat} (hitems : ReadsItems fuel) {cs inside rest : List Char}
    {v : Json} (hopen : skipBlank cs = '[' :: inside)
    (h : readValue (fuel + 1) n cs = .ok (v, rest)) :
    ∃ t text, '[' :: inside = text ++ rest ∧ Writes t text ∧ t.value? n = some v := by
  obtain ⟨inner, hinner, hinside⟩ := exists_isSpace_append inside
  rw [readValue, hopen] at h
  cases n with
  | zero => cases h
  | succ levels =>
    simp only at h
    split at h
    · next rest hclose =>
      cases h
      refine ⟨.array [], _, ?_, .emptyArray hinner, by rw [Tree.value?, items?]; rfl⟩
      rw [hinside, hclose]
      simp
    · cases h
    · obtain ⟨ts, text, vs, hskip, htext, hvs, rfl⟩ := hitems _ _ _ _ _ h
      refine ⟨.array ts, _, ?_, .array (htext.space hinner), by rw [Tree.value?, hvs]; rfl⟩
      rw [hinside, hskip]
      simp

/-- Behind a brace that opens stand the members of an object, or none. -/
theorem reads_object {fuel n : Nat} (hmembers : ReadsMembers fuel) {cs inside rest : List Char}
    {v : Json} (hopen : skipBlank cs = '{' :: inside)
    (h : readValue (fuel + 1) n cs = .ok (v, rest)) :
    ∃ t text, '{' :: inside = text ++ rest ∧ Writes t text ∧ t.value? n = some v := by
  obtain ⟨inner, hinner, hinside⟩ := exists_isSpace_append inside
  rw [readValue, hopen] at h
  cases n with
  | zero => cases h
  | succ levels =>
    simp only at h
    split at h
    · next rest hclose =>
      cases h
      refine ⟨.object [], _, ?_, .emptyObject hinner, by rw [Tree.value?, members?]; rfl⟩
      rw [hinside, hclose]
      simp
    · cases h
    · obtain ⟨ms, text, vs, hskip, htext, hvs, rfl⟩ := hmembers _ _ _ _ _ h
      refine ⟨.object ms, _, ?_, .object (htext.space hinner), by rw [Tree.value?, hvs]; rfl⟩
      rw [hinside, hskip]
      simp

/-- One step for values: the first character tells what is read. -/
theorem readsValues_succ {fuel : Nat} (hitems : ReadsItems fuel) (hmembers : ReadsMembers fuel) :
    ReadsValues (fuel + 1) := by
  intro n cs v rest h
  obtain ⟨ws, hws, hcs⟩ := exists_isSpace_append cs
  -- what is read behind white space
  suffices hcore : ∃ t text, skipBlank cs = text ++ rest ∧ Writes t text ∧ t.value? n = some v by
    obtain ⟨t, text, hskip, htext, hv⟩ := hcore
    exact ⟨ws, t, text, hws, by rw [← hskip]; exact hcs, htext, hv⟩
  have hread := h
  rw [readValue] at h
  split at h
  · cases h
  · next rest₁ heq =>
    obtain ⟨rfl, rfl⟩ := readWord_ok h
    exact ⟨.null, _, heq, .null, by rw [Tree.value?]⟩
  · next rest₁ heq =>
    obtain ⟨rfl, rfl⟩ := readWord_ok h
    exact ⟨.bool true, _, heq, .bool true, by rw [Tree.value?]⟩
  · next rest₁ heq =>
    obtain ⟨rfl, rfl⟩ := readWord_ok h
    exact ⟨.bool false, _, heq, .bool false, by rw [Tree.value?]⟩
  · next rest₁ heq =>
    obtain ⟨⟨s, rest₂⟩, hstring, h⟩ := exists_of_bind h
    cases h
    obtain ⟨ps, l, hps, rfl, htext, rfl⟩ := readString_ok hstring
    refine ⟨.string ps, quotedPieces ps, ?_, .string hps, by rw [Tree.value?, htext]; rfl⟩
    rw [heq, quotedPieces_append]
  · next inside heq =>
    rw [heq]
    exact reads_array hitems heq hread
  · next inside heq =>
    rw [heq]
    exact reads_object hmembers heq hread
  · next c rest₁ _ _ _ _ _ _ heq =>
    split at h
    · obtain ⟨text, htext, hnumber, hvalue, rfl⟩ := readNumber_ok h
      exact ⟨.number text, text, heq.trans htext, .number hnumber,
        by rw [Tree.value?, if_pos hvalue]⟩
    · cases h

/-- What is read is written, whatever the fuel. -/
theorem reads_all (fuel : Nat) : ReadsValues fuel ∧ ReadsItems fuel ∧ ReadsMembers fuel := by
  induction fuel with
  | zero =>
    refine ⟨fun n cs v rest h => ?_, fun n read cs v rest h => ?_, fun n read cs v rest h => ?_⟩
    · rw [readValue] at h
      cases h
    · rw [readItems] at h
      cases h
    · rw [readMembers] at h
      cases h
  | succ fuel ih =>
    exact ⟨readsValues_succ ih.2.1 ih.2.2, readsItems_succ ih.1 ih.2.1,
      readsMembers_succ ih.1 ih.2.2⟩

end SchemaCatalog.Json
