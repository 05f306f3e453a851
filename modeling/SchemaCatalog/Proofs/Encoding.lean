/-
# Texts and the bytes that encode them

Decoding is held against the encoding of characters: it undoes the encoding of every text and
accepts no other bytes.  Where it fails, the bytes before the place it tells are the longest part
that encodes a text, and the bytes are incomplete if more bytes would make them the encoding of a
text.  Any bytes are the stretches that they are taken apart into.
-/
import SchemaCatalog.Text.Utf8
import Mathlib.Data.String.Basic

namespace SchemaCatalog.Text

open String (utf8EncodeChar)

theorem encode_ofList (cs : List Char) : encode (String.ofList cs) = cs.flatMap utf8EncodeChar := by
  simp [encode, List.utf8Encode]

/-- A text is encoded character by character. -/
theorem encode_eq (t : String) : encode t = t.toList.flatMap utf8EncodeChar := by
  rw [← encode_ofList, String.ofList_toList]

/-! ## Characters -/

/-- The number of a character is no half of a pair and not beyond the last one. -/
theorem toNat_isScalar (c : Char) :
    c.toNat < 0xD800 ∨ 0xDFFF < c.toNat ∧ c.toNat < 0x110000 := c.valid

theorem toNat_ofNat_of_isScalar {n : Nat} (h : n < 0xD800 ∨ 0xDFFF < n ∧ n < 0x110000) :
    (Char.ofNat n).toNat = n := by
  rw [Char.ofNat, dif_pos h]
  rfl

/-- The bytes of a character, by the size of its number. -/
theorem encodeChar_cases (c : Char) :
    (∃ a, utf8EncodeChar c = [a] ∧ c.toNat ≤ 0x7F ∧ a.toNat = c.toNat) ∨
    (∃ a b, utf8EncodeChar c = [a, b] ∧ 0x80 ≤ c.toNat ∧ c.toNat ≤ 0x7FF ∧
      a.toNat = 0xC0 + c.toNat / 64 ∧ b.toNat = 0x80 + c.toNat % 64) ∨
    (∃ a b d, utf8EncodeChar c = [a, b, d] ∧ 0x800 ≤ c.toNat ∧ c.toNat ≤ 0xFFFF ∧
      a.toNat = 0xE0 + c.toNat / 4096 ∧ b.toNat = 0x80 + c.toNat / 64 % 64 ∧
      d.toNat = 0x80 + c.toNat % 64) ∨
    (∃ a b d e, utf8EncodeChar c = [a, b, d, e] ∧ 0x10000 ≤ c.toNat ∧
      a.toNat = 0xF0 + c.toNat / 262144 ∧ b.toNat = 0x80 + c.toNat / 4096 % 64 ∧
      d.toNat = 0x80 + c.toNat / 64 % 64 ∧ e.toNat = 0x80 + c.toNat % 64) := by
  have hscalar := toNat_isScalar c
  have hval : c.val.toNat = c.toNat := rfl
  rw [utf8EncodeChar, hval]
  split
  · exact Or.inl ⟨_, rfl, by omega, by rw [UInt8.toNat_ofNat']; omega⟩
  · split
    · refine Or.inr (Or.inl ⟨_, _, rfl, by omega, by omega, ?_, ?_⟩) <;>
        rw [UInt8.toNat_ofNat'] <;> omega
    · split
      · refine Or.inr (Or.inr (Or.inl ⟨_, _, _, rfl, by omega, by omega, ?_, ?_, ?_⟩)) <;>
          rw [UInt8.toNat_ofNat'] <;> omega
      · refine Or.inr (Or.inr (Or.inr ⟨_, _, _, _, rfl, by omega, ?_, ?_, ?_, ?_⟩)) <;>
          rw [UInt8.toNat_ofNat'] <;> omega

/-! ## Bounds -/

theorem isWithin_iff {low high : Nat} {b : UInt8} :
    isWithin low high b = true ↔ low ≤ b.toNat ∧ b.toNat ≤ high := by
  simp [isWithin]

theorem isContinuation_iff {b : UInt8} :
    isContinuation b = true ↔ 0x80 ≤ b.toNat ∧ b.toNat ≤ 0xBF := isWithin_iff

/-- The bounds for the second byte of three leave out longer encodings than needed, and
surrogates. -/
theorem isWithin_secondOfThree_iff {a b : UInt8} :
    isWithin (secondOfThree a).1 (secondOfThree a).2 b = true ↔
      0x80 ≤ b.toNat ∧ b.toNat ≤ 0xBF ∧ (a.toNat = 0xE0 → 0xA0 ≤ b.toNat) ∧
      (a.toNat = 0xED → b.toNat ≤ 0x9F) := by
  rw [isWithin_iff, secondOfThree]
  simp only [beq_iff_eq, ← UInt8.toNat_inj, UInt8.reduceToNat]
  split
  · omega
  · split <;> omega

/-- The bounds for the second byte of four leave out longer encodings than needed, and what lies
beyond the last character. -/
theorem isWithin_secondOfFour_iff {a b : UInt8} :
    isWithin (secondOfFour a).1 (secondOfFour a).2 b = true ↔
      0x80 ≤ b.toNat ∧ b.toNat ≤ 0xBF ∧ (a.toNat = 0xF0 → 0x90 ≤ b.toNat) ∧
      (a.toNat = 0xF4 → b.toNat ≤ 0x8F) := by
  rw [isWithin_iff, secondOfFour]
  simp only [beq_iff_eq, ← UInt8.toNat_inj, UInt8.reduceToNat]
  split
  · omega
  · split <;> omega

/-! ## Sequences of bytes that are characters -/

section Sequences

variable {a b d e : UInt8}

theorem exists_encodeChar_one (ha : a.toNat < 0x80) :
    ∃ c, utf8EncodeChar c = [a] ∧ c.toNat = a.toNat := by
  have hc : (Char.ofNat a.toNat).toNat = a.toNat := toNat_ofNat_of_isScalar (by omega)
  refine ⟨Char.ofNat a.toNat, ?_, hc⟩
  rcases encodeChar_cases (Char.ofNat a.toNat) with ⟨a', h, h'⟩ | ⟨a', b', h, h'⟩ |
    ⟨a', b', d', h, h'⟩ | ⟨a', b', d', e', h, h'⟩
  · simp only [h, List.cons.injEq, ← UInt8.toNat_inj, and_true]
    omega
  all_goals omega

theorem exists_encodeChar_two (ha : isWithin 0xC2 0xDF a = true) (hb : isContinuation b = true) :
    ∃ c, utf8EncodeChar c = [a, b] ∧ c.toNat = extend (a.toNat % 32) b := by
  rw [isWithin_iff] at ha
  rw [isContinuation_iff] at hb
  have hn : extend (a.toNat % 32) b = 64 * (a.toNat % 32) + b.toNat % 64 := rfl
  have hc := toNat_ofNat_of_isScalar (n := extend (a.toNat % 32) b) (by omega)
  refine ⟨_, ?_, hc⟩
  rcases encodeChar_cases (Char.ofNat (extend (a.toNat % 32) b)) with ⟨a', h, h'⟩ |
    ⟨a', b', h, h'⟩ | ⟨a', b', d', h, h'⟩ | ⟨a', b', d', e', h, h'⟩
  · omega
  · simp only [h, List.cons.injEq, ← UInt8.toNat_inj, and_true]
    omega
  all_goals omega

/-- Three bytes within their bounds encode the character of their bits. -/
theorem exists_encodeChar_three (ha : isWithin 0xE0 0xEF a = true)
    (hb : isWithin (secondOfThree a).1 (secondOfThree a).2 b = true)
    (hd : isContinuation d = true) :
    ∃ c, utf8EncodeChar c = [a, b, d] ∧ c.toNat = extend (extend (a.toNat % 16) b) d := by
  rw [isWithin_iff] at ha
  rw [isWithin_secondOfThree_iff] at hb
  rw [isContinuation_iff] at hd
  have hn : extend (extend (a.toNat % 16) b) d =
      64 * (64 * (a.toNat % 16) + b.toNat % 64) + d.toNat % 64 := rfl
  have hc := toNat_ofNat_of_isScalar (n := extend (extend (a.toNat % 16) b) d) (by omega)
  refine ⟨_, ?_, hc⟩
  rcases encodeChar_cases (Char.ofNat (extend (extend (a.toNat % 16) b) d)) with ⟨a', h, h'⟩ |
    ⟨a', b', h, h'⟩ | ⟨a', b', d', h, h'⟩ | ⟨a', b', d', e', h, h'⟩
  · omega
  · omega
  · simp only [h, List.cons.injEq, ← UInt8.toNat_inj, and_true]
    omega
  · omega

/-- Four bytes within their bounds encode the character of their bits. -/
theorem exists_encodeChar_four (ha : isWithin 0xF0 0xF4 a = true)
    (hb : isWithin (secondOfFour a).1 (secondOfFour a).2 b = true)
    (hd : isContinuation d = true) (he : isContinuation e = true) :
    ∃ c, utf8EncodeChar c = [a, b, d, e] ∧
      c.toNat = extend (extend (extend (a.toNat % 8) b) d) e := by
  rw [isWithin_iff] at ha
  rw [isWithin_secondOfFour_iff] at hb
  rw [isContinuation_iff] at hd he
  have hn : extend (extend (extend (a.toNat % 8) b) d) e =
      64 * (64 * (64 * (a.toNat % 8) + b.toNat % 64) + d.toNat % 64) + e.toNat % 64 := rfl
  have hc := toNat_ofNat_of_isScalar (n := extend (extend (extend (a.toNat % 8) b) d) e) (by omega)
  refine ⟨_, ?_, hc⟩
  rcases encodeChar_cases (Char.ofNat (extend (extend (extend (a.toNat % 8) b) d) e)) with
    ⟨a', h, h'⟩ | ⟨a', b', h, h'⟩ | ⟨a', b', d', h, h'⟩ | ⟨a', b', d', e', h, h'⟩
  · omega
  · omega
  · omega
  · simp only [h, List.cons.injEq, ← UInt8.toNat_inj, and_true]
    omega

end Sequences

/-! ## Decoding a character -/

/-- The bytes of a character are decoded to the character. -/
theorem decodeFrom_encodeChar (index : Nat) (c : Char) (rest : List UInt8) :
    decodeFrom index (utf8EncodeChar c ++ rest) =
      consDecoded c.toNat (decodeFrom (index + (utf8EncodeChar c).length) rest) := by
  have hscalar := toNat_isScalar c
  rcases encodeChar_cases c with ⟨a, h, hc, ha⟩ | ⟨a, b, h, hc, hc', ha, hb⟩ |
    ⟨a, b, d, h, hc, hc', ha, hb, hd⟩ | ⟨a, b, d, e, h, hc, ha, hb, hd, he⟩
  -- one case for each number of bytes; the ranges of the first byte exclude one another
  · have h₁ : a.toNat < 0x80 := by omega
    simp only [h, List.cons_append, List.nil_append]
    rw [decodeFrom.eq_def]
    simp only [if_pos h₁, List.length_singleton]
    rw [ha]
  · have h₁ : ¬a.toNat < 0x80 := by omega
    have h₂ : isWithin 0xC2 0xDF a = true := isWithin_iff.2 (by omega)
    have h₃ : isContinuation b = true := isContinuation_iff.2 (by omega)
    have hn : extend (a.toNat % 32) b = c.toNat := by rw [extend]; omega
    simp only [h, List.cons_append, List.nil_append]
    rw [decodeFrom.eq_def]
    simp only [if_neg h₁, h₂, h₃, if_pos, hn, List.length_cons, List.length_nil]
  · have h₁ : ¬a.toNat < 0x80 := by omega
    have h₂ : ¬isWithin 0xC2 0xDF a = true := by rw [isWithin_iff]; omega
    have h₃ : isWithin 0xE0 0xEF a = true := isWithin_iff.2 (by omega)
    have h₄ : isWithin (secondOfThree a).1 (secondOfThree a).2 b = true :=
      isWithin_secondOfThree_iff.2 (by omega)
    have h₅ : isContinuation d = true := isContinuation_iff.2 (by omega)
    have hn : extend (extend (a.toNat % 16) b) d = c.toNat := by simp only [extend]; omega
    simp only [h, List.cons_append, List.nil_append]
    rw [decodeFrom.eq_def]
    simp only [if_neg h₁, if_neg h₂, h₃, h₄, h₅, if_pos, hn, List.length_cons, List.length_nil]
  · have h₁ : ¬a.toNat < 0x80 := by omega
    have h₂ : ¬isWithin 0xC2 0xDF a = true := by rw [isWithin_iff]; omega
    have h₃ : ¬isWithin 0xE0 0xEF a = true := by rw [isWithin_iff]; omega
    have h₄ : isWithin 0xF0 0xF4 a = true := isWithin_iff.2 (by omega)
    have h₅ : isWithin (secondOfFour a).1 (secondOfFour a).2 b = true :=
      isWithin_secondOfFour_iff.2 (by omega)
    have h₆ : isContinuation d = true := isContinuation_iff.2 (by omega)
    have h₇ : isContinuation e = true := isContinuation_iff.2 (by omega)
    have hn : extend (extend (extend (a.toNat % 8) b) d) e = c.toNat := by
      simp only [extend]; omega
    simp only [h, List.cons_append, List.nil_append]
    rw [decodeFrom.eq_def]
    simp only [if_neg h₁, if_neg h₂, if_neg h₃, h₄, h₅, h₆, h₇, if_pos, hn, List.length_cons,
      List.length_nil]

/-- What bytes begin with: a character, or less than a character, which the result of decoding
them tells, or a byte that rules out a character whatever follows. -/
inductive Begins (index : Nat) (bytes : List UInt8) (result : Except Undecodable (List Char)) :
    Prop
  | nothing (h : bytes = [])
  | character (c : Char) (rest : List UInt8) (h : bytes = utf8EncodeChar c ++ rest)
  | part (c : Char) (more : List UInt8) (h : bytes ++ more = utf8EncodeChar c)
    (error : result = .error ⟨index, none⟩)
  | bad (n : Nat) (pos : 0 < n)
    (error : ∀ more, decodeFrom index (bytes ++ more) = .error ⟨index, some n⟩)

/-- Some byte may follow the first one of a character of three bytes. -/
theorem exists_secondOfThree (a : UInt8) :
    ∃ b, isWithin (secondOfThree a).1 (secondOfThree a).2 b = true := by
  rw [secondOfThree]
  split
  · exact ⟨0xA0, by decide⟩
  · split <;> exact ⟨0x80, by decide⟩

/-- Some byte may follow the first one of a character of four bytes. -/
theorem exists_secondOfFour (a : UInt8) :
    ∃ b, isWithin (secondOfFour a).1 (secondOfFour a).2 b = true := by
  rw [secondOfFour]
  split
  · exact ⟨0x90, by decide⟩
  · split <;> exact ⟨0x80, by decide⟩

/-- There is nothing else that bytes can begin with; the cases are those of decoding. -/
theorem begins (index : Nat) (bytes : List UInt8) :
    Begins index bytes (decodeFrom index bytes) := by
  -- a byte that continues any character completes those that are cut off
  have hlow : isContinuation 0x80 = true := by decide
  fun_cases decodeFrom index bytes with
  | case1 => exact .nothing rfl
  | case2 a rest ha =>
    obtain ⟨c, hc, -⟩ := exists_encodeChar_one ha
    exact .character c rest (by rw [hc]; rfl)
  | case3 a h₁ ha =>
    obtain ⟨c, hc, -⟩ := exists_encodeChar_two ha hlow
    exact .part c [0x80] hc.symm rfl
  | case4 a h₁ ha b rest hb =>
    obtain ⟨c, hc, -⟩ := exists_encodeChar_two ha hb
    exact .character c rest (by rw [hc]; rfl)
  | case6 a h₁ h₂ ha =>
    obtain ⟨b, hb⟩ := exists_secondOfThree a
    obtain ⟨c, hc, -⟩ := exists_encodeChar_three ha hb hlow
    exact .part c [b, 0x80] hc.symm rfl
  | case7 a h₁ h₂ ha b hb =>
    obtain ⟨c, hc, -⟩ := exists_encodeChar_three ha hb hlow
    exact .part c [0x80] hc.symm rfl
  | case8 a h₁ h₂ ha b hb d rest hd =>
    obtain ⟨c, hc, -⟩ := exists_encodeChar_three ha hb hd
    exact .character c rest (by rw [hc]; rfl)
  | case11 a h₁ h₂ h₃ ha =>
    obtain ⟨b, hb⟩ := exists_secondOfFour a
    obtain ⟨c, hc, -⟩ := exists_encodeChar_four ha hb hlow hlow
    exact .part c [b, 0x80, 0x80] hc.symm rfl
  | case12 a h₁ h₂ h₃ ha b hb =>
    obtain ⟨c, hc, -⟩ := exists_encodeChar_four ha hb hlow hlow
    exact .part c [0x80, 0x80] hc.symm rfl
  | case13 a h₁ h₂ h₃ ha b hb d hd =>
    obtain ⟨c, hc, -⟩ := exists_encodeChar_four ha hb hd hlow
    exact .part c [0x80] hc.symm rfl
  | case14 a h₁ h₂ h₃ ha b hb d hd e rest he =>
    obtain ⟨c, hc, -⟩ := exists_encodeChar_four ha hb hd he
    exact .character c rest (by rw [hc]; rfl)
  -- a byte that cannot stand where it does rules out all that may follow
  | case5 | case10 | case17 | case18 =>
    refine .bad 1 (by decide) fun more => ?_
    simp only [List.cons_append]
    rw [decodeFrom.eq_def]
    simp only [*, if_true, if_false, Bool.false_eq_true]
  | case9 | case16 =>
    refine .bad 2 (by decide) fun more => ?_
    simp only [List.cons_append]
    rw [decodeFrom.eq_def]
    simp only [*, if_true, if_false, Bool.false_eq_true]
  | case15 =>
    refine .bad 3 (by decide) fun more => ?_
    simp only [List.cons_append]
    rw [decodeFrom.eq_def]
    simp only [*, if_true, if_false, Bool.false_eq_true]

/-! ## Decoding a text -/

/-- A character that is decoded comes before what follows it. -/
theorem map_consDecoded (c : Char) (r : Except Undecodable (List Char)) :
    consDecoded c.toNat r = r.map (c :: ·) := by
  cases r <;> simp [consDecoded, Except.map, Char.ofNat_toNat]

/-- The bytes of characters are decoded to the characters. -/
theorem decodeFrom_flatMap (index : Nat) (cs : List Char) (rest : List UInt8) :
    decodeFrom index (cs.flatMap utf8EncodeChar ++ rest) =
      (decodeFrom (index + (cs.flatMap utf8EncodeChar).length) rest).map (cs ++ ·) := by
  induction cs generalizing index with
  | nil =>
    change decodeFrom index rest = (decodeFrom index rest).map id
    cases decodeFrom index rest <;> rfl
  | cons c cs ih =>
    rw [List.flatMap_cons, List.append_assoc, decodeFrom_encodeChar, ih, map_consDecoded,
      List.length_append, ← Nat.add_assoc]
    generalize index + (utf8EncodeChar c).length + (cs.flatMap utf8EncodeChar).length = behind
    cases decodeFrom behind rest <;> rfl

/-- Bytes are the characters that they begin with, as many as there are, and a rest that is empty,
or incomplete, or bad whatever follows it. -/
theorem decodeFrom_split (index : Nat) (bytes : List UInt8) :
    ∃ (cs : List Char) (rest : List UInt8), bytes = cs.flatMap utf8EncodeChar ++ rest ∧
      (rest = [] ∨
        (decodeFrom index bytes = .error ⟨index + (cs.flatMap utf8EncodeChar).length, none⟩ ∧
          ∃ more c, rest ++ more = utf8EncodeChar c) ∨
        ∃ n, 0 < n ∧ ∀ more, decodeFrom index (bytes ++ more) =
          .error ⟨index + (cs.flatMap utf8EncodeChar).length, some n⟩) := by
  -- on the number of bytes: what follows a character is shorter
  generalize hn : bytes.length = n
  induction n using Nat.strongRecOn generalizing index bytes with
  | ind n ih =>
    cases begins index bytes with
    | nothing h =>
      subst h
      exact ⟨[], [], rfl, Or.inl rfl⟩
    | character c rest h =>
      subst h
      have hpos : 0 < (utf8EncodeChar c).length :=
        List.length_pos_iff.2 String.utf8EncodeChar_ne_nil
      obtain ⟨cs, rest', rfl, h⟩ := ih rest.length (by rw [← hn, List.length_append]; omega)
        (index + (utf8EncodeChar c).length) rest rfl
      refine ⟨c :: cs, rest', by rw [List.flatMap_cons, List.append_assoc], ?_⟩
      simp only [List.append_assoc, List.flatMap_cons, List.length_append, decodeFrom_encodeChar,
        map_consDecoded, Nat.add_assoc] at h ⊢
      rcases h with h | ⟨h, hmore⟩ | ⟨k, hk, h⟩
      · exact Or.inl h
      · exact Or.inr (Or.inl ⟨by rw [h]; rfl, hmore⟩)
      · exact Or.inr (Or.inr ⟨k, hk, fun more => by rw [h]; rfl⟩)
    | part c more h error => exact ⟨[], bytes, rfl, Or.inr (Or.inl ⟨error, more, c, h⟩)⟩
    | bad n pos error => exact ⟨[], bytes, rfl, Or.inr (Or.inr ⟨n, pos, error⟩)⟩

/-- Where decoding fails there are characters before and bytes behind.  These are incomplete, or bad
whatever follows them. -/
theorem exists_of_decodeFrom_error {index : Nat} {bytes : List UInt8} {e : Undecodable}
    (h : decodeFrom index bytes = .error e) :
    ∃ (cs : List Char) (rest : List UInt8), bytes = cs.flatMap utf8EncodeChar ++ rest ∧
      rest ≠ [] ∧ e.validUpTo = index + (cs.flatMap utf8EncodeChar).length ∧
      ((e.length = none ∧ ∃ more c, rest ++ more = utf8EncodeChar c) ∨
        ∃ n, 0 < n ∧ e.length = some n ∧ ∀ more, decodeFrom index (bytes ++ more) = .error e) := by
  obtain ⟨cs, rest, hbytes, hcases⟩ := decodeFrom_split index bytes
  have hne : rest ≠ [] := by
    rintro rfl
    rw [hbytes, decodeFrom_flatMap, decodeFrom] at h
    cases h
  refine ⟨cs, rest, hbytes, hne, ?_⟩
  rcases hcases with h' | ⟨h', hmore⟩ | ⟨n, hn, h'⟩
  · exact absurd h' hne
  · rw [h, Except.error.injEq] at h'
    subst h'
    exact ⟨rfl, Or.inl ⟨rfl, hmore⟩⟩
  · have hself := h' []
    rw [List.append_nil, h, Except.error.injEq] at hself
    subst hself
    exact ⟨rfl, Or.inr ⟨n, hn, rfl, h'⟩⟩

/-- A text is decoded from its bytes. -/
theorem decode_encode (t : String) : decode (encode t) = .ok t := by
  have h := decodeFrom_flatMap 0 t.toList []
  rw [List.append_nil, ← encode_eq] at h
  rw [decode, h]
  simp [decodeFrom, Except.map]

/-- **Decoding.**  Bytes are decoded to a text exactly if they encode it. -/
theorem decode_eq_ok_iff {bytes : List UInt8} {t : String} :
    decode bytes = .ok t ↔ encode t = bytes := by
  refine ⟨fun h => ?_, fun h => h ▸ decode_encode t⟩
  obtain ⟨cs, rest, rfl, rfl | ⟨h', -⟩ | ⟨n, -, h'⟩⟩ := decodeFrom_split 0 bytes
  · rw [List.append_nil, ← encode_ofList, decode_encode, Except.ok.injEq] at h
    rw [List.append_nil, ← encode_ofList, h]
  · rw [decode, h'] at h
    cases h
  · have h' := h' []
    rw [List.append_nil] at h'
    rw [decode, h'] at h
    cases h

/-! ## Bytes that encode no text -/

/-- Where bytes stop being the encoding of a text: what stands before is the longest beginning of
them that encodes one, and they are incomplete if more bytes would make them one. -/
structure Undecodable.Describes (e : Undecodable) (bytes : List UInt8) : Prop where
  within : e.validUpTo < bytes.length
  valid : ∃ t, encode t = bytes.take e.validUpTo
  longest : ∀ t, encode t <+: bytes → (encode t).length ≤ e.validUpTo
  incomplete : e.length = none ↔ ∃ more t, encode t = bytes ++ more

theorem decode_eq_error {bytes : List UInt8} {e : Undecodable} (h : decode bytes = .error e) :
    decodeFrom 0 bytes = .error e := by
  rw [decode] at h
  split at h
  · cases h
  · cases h
    assumption

/-- Where decoding fails is counted from where it starts. -/
theorem le_validUpTo {index : Nat} {bytes : List UInt8} {e : Undecodable}
    (h : decodeFrom index bytes = .error e) : index ≤ e.validUpTo := by
  obtain ⟨cs, rest, -, -, hvalid, -⟩ := exists_of_decodeFrom_error h
  rw [hvalid]
  exact Nat.le_add_right _ _

/-- **Failing to decode.**  An error tells where bytes stop being the encoding of a text. -/
theorem describes_of_decode {bytes : List UInt8} {e : Undecodable} (h : decode bytes = .error e) :
    e.Describes bytes := by
  have hfrom := decode_eq_error h
  have longest (t : String) (ht : encode t <+: bytes) : (encode t).length ≤ e.validUpTo := by
    obtain ⟨rest, rfl⟩ := ht
    rw [encode_eq, decodeFrom_flatMap, Nat.zero_add] at hfrom
    cases hrest : decodeFrom (t.toList.flatMap utf8EncodeChar).length rest with
    | ok cs =>
      rw [hrest] at hfrom
      cases hfrom
    | error e' =>
      rw [hrest] at hfrom
      cases hfrom
      rw [encode_eq]
      exact le_validUpTo hrest
  -- what can be decoded comes first, and the rest begins with what cannot
  obtain ⟨cs, rest, rfl, hne, hvalid, hcases⟩ := exists_of_decodeFrom_error hfrom
  rw [Nat.zero_add] at hvalid
  have hincomplete : e.length = none ↔
      ∃ more t, encode t = cs.flatMap utf8EncodeChar ++ rest ++ more := by
    rcases hcases with ⟨hnone, more, c, hmore⟩ | ⟨n, -, hsome, hbad⟩
    · refine iff_of_true hnone ⟨more, String.ofList (cs ++ [c]), ?_⟩
      rw [encode_ofList, List.flatMap_append, List.flatMap_singleton, ← hmore, List.append_assoc]
    · rw [hsome]
      refine iff_of_false (Option.some_ne_none n) ?_
      rintro ⟨more, t, ht⟩
      -- a text that went on so would be refused at the same place
      have hbad := hbad more
      rw [← ht, encode_eq, ← List.append_nil (t.toList.flatMap _), decodeFrom_flatMap,
        decodeFrom] at hbad
      cases hbad
  refine ⟨?_, ⟨String.ofList cs, ?_⟩, longest, hincomplete⟩
  · rw [hvalid, List.length_append]
    exact Nat.lt_add_of_pos_right (List.length_pos_iff.2 hne)
  · rw [hvalid, List.take_left, encode_ofList]

/-- The bytes of a stretch. -/
def Stretch.bytes (s : Stretch) : List UInt8 := s.text.flatMap utf8EncodeChar ++ s.bad

/-- The sequence at which decoding fails is not empty, so going on behind it makes progress. -/
theorem pos_of_decodeFrom {index n : Nat} {bytes : List UInt8} {e : Undecodable}
    (h : decodeFrom index bytes = .error e) (hn : e.length = some n) : 0 < n := by
  obtain ⟨-, -, -, -, -, ⟨hnone, -⟩ | ⟨m, hm, hlength, -⟩⟩ := exists_of_decodeFrom_error h
  · cases hnone.symm.trans hn
  · cases hlength.symm.trans hn
    exact hm

/-- What stands before the place where decoding fails can be decoded. -/
theorem exists_decodeFrom_take {bytes : List UInt8} {e : Undecodable}
    (h : decodeFrom 0 bytes = .error e) :
    ∃ cs, decodeFrom 0 (bytes.take e.validUpTo) = .ok cs ∧
      cs.flatMap utf8EncodeChar = bytes.take e.validUpTo := by
  obtain ⟨t, ht⟩ := (describes_of_decode (by rw [decode, h] : decode bytes = .error e)).valid
  have hcs := decodeFrom_flatMap 0 t.toList []
  rw [List.append_nil, ← encode_eq, ht] at hcs
  exact ⟨t.toList, by rw [hcs]; simp [decodeFrom, Except.map], by rw [← encode_eq, ht]⟩

/-- As many steps as there are bytes are enough to take them apart without a loss. -/
theorem flatMap_stretchesWithin {fuel : Nat} {bytes : List UInt8} (h : bytes.length ≤ fuel) :
    (stretchesWithin fuel bytes).flatMap Stretch.bytes = bytes := by
  induction fuel generalizing bytes with
  | zero =>
    rw [List.length_eq_zero_iff.1 (Nat.le_zero.1 h)]
    rfl
  | succ fuel ih =>
    rw [stretchesWithin]
    cases hdecode : decodeFrom 0 bytes with
    | ok cs =>
      have hcs : encode (String.ofList cs) = bytes :=
        decode_eq_ok_iff.1 (by rw [decode, hdecode])
      simp [Stretch.bytes, ← encode_ofList, hcs]
    | error e =>
      obtain ⟨cs, htext, hcs⟩ := exists_decodeFrom_take hdecode
      simp only [htext, Except.toOption, Option.getD_some]
      cases hlength : e.length with
      | none => simp [Stretch.bytes, hcs]
      | some n =>
        have hn := pos_of_decodeFrom hdecode hlength
        have hrest : ((bytes.drop e.validUpTo).drop n).length ≤ fuel := by
          rw [List.length_drop, List.length_drop]
          omega
        rw [List.flatMap_cons, ih hrest, Stretch.bytes, hcs, List.append_assoc,
          List.take_append_drop, List.take_append_drop]

/-- **Stretches.**  Bytes are the stretches that they are taken apart into, in a row. -/
theorem flatMap_stretches (bytes : List UInt8) : (stretches bytes).flatMap Stretch.bytes = bytes :=
  flatMap_stretchesWithin (Nat.le_refl _)

/-- Nothing is mended in the bytes of a text. -/
theorem mend_encode (t : String) : mend (encode t) = t := by
  have hdecode := decodeFrom_flatMap 0 t.toList []
  rw [List.append_nil, ← encode_eq] at hdecode
  rw [mend, stretches]
  cases hbytes : encode t with
  | nil =>
    have hdecode' := decode_encode t
    rw [hbytes] at hdecode'
    exact Except.ok.inj hdecode'
  | cons b bytes =>
    rw [hbytes] at hdecode
    rw [List.length_cons, stretchesWithin, hdecode]
    simp [decodeFrom, Except.map, Stretch.mended]

/-- A full stop in mended bytes is a byte of its own. -/
theorem not_mem_mend {bytes : List UInt8} (h : (0x2E : UInt8) ∉ bytes) :
    '.' ∉ (mend bytes).toList := by
  rw [mend, String.toList_ofList, List.mem_flatMap]
  rintro ⟨s, hs, hdot⟩
  have htext : '.' ∈ s.text := by
    rw [Stretch.mended] at hdot
    split at hdot
    · exact hdot
    · simpa using hdot
  have hbyte : (0x2E : UInt8) ∈ s.bytes :=
    List.mem_append_left _ (List.mem_flatMap.2 ⟨'.', htext, by decide⟩)
  exact h (flatMap_stretches bytes ▸ List.mem_flatMap.2 ⟨s, hs, hbyte⟩)

end SchemaCatalog.Text
