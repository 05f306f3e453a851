/-
# How numbers are spelled

A number is written with digits, an optional minus in front and an optional point
between digits.  It is scanned as one lexeme unless it begins with a zero that does not
count; then there is a flaw where it begins.
-/
import SchemaCatalog.Number.Shortest
import SchemaCatalog.Proofs.Spelling

namespace SchemaCatalog.Document

open Lexeme (Kind)

/-! ## Digits -/

theorem start_of_isDigit {c : Char} (h : c.isDigit = true) :
    ScanState.start c = if c = '0' then .zero else .digits := by
  have hne : ∀ d : Char, d.isDigit = false → (c == d) = false :=
    fun d hd => beq_eq_false_iff_ne.2 (ne_of_test h hd)
  have hbreak : isBreak c = false := by
    rw [← Bool.not_eq_true]
    intro hc
    rw [(break_facts hc).2.2.1] at h
    cases h
  simp only [ScanState.start, isBlank_eq_false_of_isBreak hbreak, hne '#' (by decide),
    hne ',' (by decide), hne '.' (by decide), hne '-' (by decide), h, if_true,
    Bool.false_eq_true, if_false, beq_iff_eq]

theorem next_minus_of_isDigit {c : Char} (h : c.isDigit = true) :
    ScanState.next .minus c = some (ScanState.start c) := by
  rw [start_of_isDigit h]
  show (if c == '0' then some ScanState.zero else if c.isDigit then some ScanState.digits else _) =
    _
  by_cases hc : c = '0'
  · simp [hc]
  · simp [hc, h]

theorem walk_digits {cs : List Char} (h : cs.all Char.isDigit = true) :
    ScanState.digits.walk cs = some .digits :=
  ScanState.walk_of_forall fun c hc => if_pos (List.all_eq_true.1 h c hc)

theorem walk_fraction {cs : List Char} (h : cs.all Char.isDigit = true) :
    ScanState.fraction.walk cs = some .fraction :=
  ScanState.walk_of_forall fun c hc => if_pos (List.all_eq_true.1 h c hc)

/-! ## Whole parts and fractions -/

/-- Digits of which the first is no zero, unless it is the only one. -/
def IsWhole (ds : List Char) : Prop :=
  ds.all Char.isDigit = true ∧ ds ≠ [] ∧ (ds.head? = some '0' → ds = ['0'])

/-- Digits behind a point, if there are any. -/
def IsFraction (fs : List Char) : Prop :=
  fs = [] ∨ ∃ d ds, fs = '.' :: d :: ds ∧ (d :: ds).all Char.isDigit = true

theorem IsWhole.isDigit {d : Char} {ds : List Char} (h : IsWhole (d :: ds)) :
    d.isDigit = true :=
  List.all_eq_true.1 h.1 d List.mem_cons_self

/-- The minus of a number, if it has one. -/
def sign (isNegative : Bool) : List Char := if isNegative then ['-'] else []

/-- The token that a number is. -/
def numberToken (fs : List Char) (text : List Char) : Token :=
  if fs = [] then .int (String.ofList text) else .float (String.ofList text)

/-- The state after the whole part of a number. -/
theorem walk_whole {d : Char} {ds : List Char} (h : IsWhole (d :: ds)) :
    (ScanState.start d).walk ds = some (ScanState.start d) := by
  obtain ⟨hall, -, hzero⟩ := h
  rw [List.all_cons, Bool.and_eq_true] at hall
  rw [start_of_isDigit hall.1]
  split
  · next hd =>
    have hds := hzero (by rw [hd]; rfl)
    simp only [List.cons.injEq] at hds
    rw [hds.2]
    rfl
  · exact walk_digits hall.2

/-- The state after a whole part ends before the fraction, and after that before a
break. -/
theorem walk_number {d : Char} {ds fs : List Char} (h : IsWhole (d :: ds)) (hfs : IsFraction fs) :
    ∃ st, (ScanState.start d).walk (ds ++ fs) = some st ∧
      (∀ c, isBreak c = true → ScanState.next st c = none) ∧
      ∀ text, ScanState.finish st text = .token (numberToken fs text) := by
  rcases hfs with rfl | ⟨f, gs, rfl, hall⟩
  · refine ⟨ScanState.start d, by rw [List.append_nil]; exact walk_whole h, ?_, ?_⟩
    · intro c hc
      obtain ⟨-, hs, hdig, hdot, hexp, -⟩ := break_facts hc
      rw [start_of_isDigit h.isDigit]
      split <;> simp [ScanState.next, ScanState.afterInteger, hs, hdig, hdot, hexp]
    · intro text
      rw [start_of_isDigit h.isDigit]
      split <;> rfl
  · rw [List.all_cons, Bool.and_eq_true] at hall
    have hpoint : ScanState.next (ScanState.start d) '.' = some .point := by
      rw [start_of_isDigit h.isDigit]
      split <;> rfl
    have hfraction : ScanState.next .point f = some .fraction := if_pos hall.1
    refine ⟨.fraction, ?_, ?_, ?_⟩
    · rw [ScanState.walk_append (walk_whole h), ScanState.walk_cons_of_next hpoint,
        ScanState.walk_cons_of_next hfraction]
      exact walk_fraction hall.2
    · intro c hc
      obtain ⟨-, hs, hdig, hdot, hexp, -⟩ := break_facts hc
      simp [ScanState.next, ScanState.afterFloat, hs, hdig, hdot, hexp]
    · intro text
      simp [ScanState.finish, numberToken]

/-- A number spells itself. -/
theorem spells_number (isNegative : Bool) {ds fs : List Char} (h : IsWhole ds)
    (hfs : IsFraction fs) :
    Spells (sign isNegative ++ (ds ++ fs))
      [.token (numberToken fs (sign isNegative ++ (ds ++ fs)))] := by
  intro rest hrest
  cases ds with
  | nil => exact absurd rfl h.2.1
  | cons d ds =>
    obtain ⟨st, hwalk, hbreak, hfinish⟩ := walk_number h hfs
    cases isNegative with
    | false =>
      exact kindsIn_lexeme d (ds ++ fs) st hwalk (fun c hc => hbreak c (hrest c hc)) (hfinish _)
        (by simp)
    | true =>
      -- behind the minus, a digit leads where it leads at the start of a lexeme
      refine kindsIn_lexeme '-' (d :: (ds ++ fs)) st ?_
        (fun c hc => hbreak c (hrest c hc)) (hfinish _) (by simp)
      have hstart : ScanState.start '-' = .minus := rfl
      rw [hstart, ScanState.walk_cons_of_next (next_minus_of_isDigit h.isDigit)]
      exact hwalk

/-! ## Whole numbers -/

/-- Only zero is written as zero. -/
theorem eq_zero_of_toDigits {n : Nat} (h : Nat.toDigits 10 n = ['0']) : n = 0 := by
  have hvalue : Nat.ofDigitChars 10 (Nat.toDigits 10 n) 0 = n := Nat.ofDigitChars_ten_toDigits
  rw [h] at hvalue
  exact hvalue.symm

/-- What is written behind the digits of a number does not change the first of them. -/
theorem head?_toDigits_append (n : Nat) (cs : List Char) :
    (Nat.toDigits 10 n ++ cs).head? = (Nat.toDigits 10 n).head? := by
  obtain ⟨d, ds, hds⟩ := List.exists_cons_of_ne_nil (Nat.toDigits_ne_nil (n := n) (b := 10))
  rw [hds]
  rfl

/-- The digits of a number have no zero in front. -/
theorem isWhole_toDigits (n : Nat) : IsWhole (Nat.toDigits 10 n) := by
  refine ⟨?_, Nat.toDigits_ne_nil, ?_⟩
  · rw [List.all_eq_true]
    intro c hc
    exact Nat.isDigit_of_mem_toDigits (by decide) (by decide) hc
  · induction n using Nat.strongRecOn with
    | _ n ih =>
      rw [Nat.toDigits_eq_if (by decide)]
      split
      · next hn =>
        have hdigits : ∀ m < 10,
            [Nat.digitChar m].head? = some '0' → [Nat.digitChar m] = ['0'] := by
          decide
        exact hdigits n hn
      · next hn =>
        intro hhead
        rw [head?_toDigits_append] at hhead
        -- the higher digits are those of a number that is not zero
        have hzero := eq_zero_of_toDigits (ih (n / 10) (by omega) hhead)
        omega

/-- A whole number spells itself. -/
theorem spells_int (i : Int) : Spells (toString i).toList [.token (.int (toString i))] := by
  have hnat : ∀ isNegative n, toString i = String.ofList (sign isNegative ++ Nat.toDigits 10 n) →
      Spells (toString i).toList [.token (.int (toString i))] := by
    intro isNegative n htext
    have hspells := spells_number isNegative (isWhole_toDigits n) (Or.inl rfl)
    rw [List.append_nil] at hspells
    rw [htext, String.toList_ofList]
    exact hspells
  by_cases h : 0 ≤ i
  · refine hnat false i.toNat ?_
    rw [Int.toString_eq_repr, Int.repr_eq_if, if_pos h, Nat.repr_eq_ofList_toDigits]
    rfl
  · refine hnat true (-i).toNat ?_
    rw [Int.toString_eq_repr, Int.repr_eq_if, if_neg h, Nat.repr_eq_ofList_toDigits]
    simp [sign]

/-! ## Numbers with a fraction -/

open Binary64

theorem less_zero_ratio {r : Ratio} {d : Nat} (hr : 0 < r.1) (hd : 0 < d) :
    less (0, d) r = true := by
  simp only [less, decide_eq_true_eq, Nat.zero_mul]
  exact Nat.mul_pos hr hd

theorem power_pos {b : Nat} (hb : 0 < b) (e : Int) : 0 < (power b e).1 ∧ 0 < (power b e).2 := by
  rw [power]
  split
  · exact ⟨Nat.pow_pos hb, Nat.one_pos⟩
  · exact ⟨Nat.one_pos, Nat.pow_pos hb⟩

/-- Zero lies in no interval around a positive number. -/
theorem contains_zero {significand : Nat} (h : significand ≠ 0) (exponent : Int) {d : Nat}
    (hd : 0 < d) : (interval significand exponent).contains (0, d) = false := by
  have hbelow : 0 < (interval significand exponent).below := by
    simp only [interval]
    split <;> omega
  have hratio : 0 < ((interval significand exponent).ratio
      (interval significand exponent).below).1 :=
    Nat.mul_pos hbelow (power_pos (by decide) _).1
  -- zero is below the lower end, whether or not the ends belong to the interval
  have hless := less_zero_ratio hratio hd
  have hnot : less ((interval significand exponent).ratio
      (interval significand exponent).below) (0, d) = false := by
    simp [less]
  rw [Interval.contains]
  split
  · rw [hless]
    rfl
  · rw [hnot, Bool.false_and]

/-- No decimal number in such an interval is zero. -/
theorem candidate?_ne_zero {significand : Nat} (h : significand ≠ 0) {exponent place : Int}
    {r : Ratio} {units : Nat}
    (hc : candidate? (interval significand exponent) r place = some units) : units ≠ 0 := by
  rintro rfl
  have hzero : (interval significand exponent).contains
      (times (0, 1) (power 10 place)) = false := by
    have := contains_zero h exponent (Nat.mul_pos Nat.one_pos (power_pos (b := 10) (by decide)
      place).2)
    simpa [times] using this
  -- of the two neighbours, one that is zero would lie in the interval
  simp only [candidate?] at hc
  split at hc
  · next hdown hup =>
    simp only [Option.some.injEq] at hc
    split at hc
    · exact absurd hc (Nat.succ_ne_zero _)
    · rw [hc, hzero] at hdown
      cases hdown
  · next hdown hup =>
    simp only [Option.some.injEq] at hc
    rw [hc, hzero] at hdown
    cases hdown
  · next hdown hup => simp at hc
  · cases hc

theorem le_leadingZeros (r : Ratio) (fuel n : Nat) : n ≤ leadingZeros r fuel n := by
  induction fuel generalizing n with
  | zero => exact Nat.le_refl n
  | succ fuel ih =>
    rw [leadingZeros]
    split
    · exact Nat.le_refl n
    · exact Nat.le_trans (Nat.le_succ n) (ih (n + 1))

/-- A number with so many digits is at least that power of ten. -/
theorem pow_digitCount_le {n : Nat} (h : 0 < n) : Nat.pow 10 (digitCount n - 1) ≤ n := by
  have hpos : 0 < (Nat.toDigits 10 n).length := Nat.length_toDigits_pos
  rw [digitCount]
  by_cases hone : (Nat.toDigits 10 n).length = 1
  · rw [hone]
    exact h
  · have hle : ¬(Nat.toDigits 10 n).length ≤ (Nat.toDigits 10 n).length - 1 := by omega
    rw [Nat.length_toDigits_le_iff (by decide) (by omega), Nat.not_lt] at hle
    exact hle

/-- A ratio is at least the power of ten below its magnitude, if that is a whole number. -/
theorem pow_magnitude_le {r : Ratio} (hr : 0 < r.2) (h : 0 < magnitude r) :
    Nat.pow 10 ((magnitude r).toNat - 1) ≤ r.1 / r.2 := by
  rw [magnitude] at h ⊢
  split at h
  · next hle =>
    rw [if_pos hle, Int.toNat_natCast]
    exact pow_digitCount_le (Nat.div_pos hle hr)
  · have := le_leadingZeros r 400 1
    omega

/-- A decimal number that is found has no zeros in front of its units, unless it has a
fraction. -/
theorem shortestFrom_whole {significand : Nat} (h : significand ≠ 0) (exponent : Int)
    {r : Ratio} (hr : 0 < r.2) (fuel : Nat) {count : Nat} (hcount : 0 < count) :
    let d := shortestFrom (interval significand exponent) r (magnitude r) fuel count
    d.1 = 0 → d.2 ≤ 0 := by
  induction fuel generalizing count with
  | zero =>
    intro d hzero
    refine Int.not_lt.1 fun hplace => ?_
    -- with fewer digits asked for than there are, some unit is left
    have hlt : (count : Int) < magnitude r := by
      have : d.2 = magnitude r - count := rfl
      omega
    obtain ⟨k, hk⟩ : ∃ k : Nat, magnitude r = count + k + 1 :=
      ⟨(magnitude r - count - 1).toNat, by omega⟩
    have hbig := pow_magnitude_le hr (by omega)
    have hpower : power 10 ((count : Int) - magnitude r) = (1, Nat.pow 10 (k + 1)) := by
      rw [power, if_neg (by omega), hk]
      congr 3
      omega
    have hunits : d.1 = r.1 / r.2 / Nat.pow 10 (k + 1) := by
      show (times r (power 10 ((count : Int) - magnitude r))).1 /
        (times r (power 10 ((count : Int) - magnitude r))).2 = _
      rw [hpower, times, Nat.mul_one, Nat.div_div_eq_div_mul]
    have hpow : Nat.pow 10 (k + 1) ≤ r.1 / r.2 := by
      refine Nat.le_trans (Nat.pow_le_pow_right (by decide) ?_) hbig
      rw [hk]
      omega
    have := Nat.div_pos hpow (Nat.pow_pos (by decide : 0 < 10))
    omega
  | succ fuel ih =>
    intro d hzero
    have hd : d = shortestFrom (interval significand exponent) r (magnitude r) (fuel + 1) count :=
      rfl
    rw [shortestFrom] at hd
    split at hd
    · next units hc =>
      rw [hd] at hzero
      exact absurd hzero (candidate?_ne_zero h hc)
    · next hc =>
      have := @ih (count + 1) (by omega)
      rw [hd] at hzero ⊢
      exact this hzero

/-- Leaving out zeros at the end keeps this. -/
theorem dropZeros_whole (fuel : Nat) {d : Nat × Int} (h : d.1 = 0 → d.2 ≤ 0) :
    (dropZeros fuel d).1 = 0 → (dropZeros fuel d).2 ≤ 0 := by
  induction fuel generalizing d with
  | zero => exact h
  | succ fuel ih =>
    obtain ⟨units, place⟩ := d
    rw [dropZeros]
    split
    · next hu =>
      simp only [Bool.and_eq_true, decide_eq_true_eq] at hu
      refine ih ?_
      intro hzero
      simp only at hzero
      omega
    · exact h

/-- Zeros behind the digits of a number, which zero does not have. -/
theorem isWhole_append_zeros {units n : Nat} (h : units = 0 → n = 0) :
    IsWhole (Nat.toDigits 10 units ++ List.replicate n '0') := by
  have hdigits := isWhole_toDigits units
  refine ⟨?_, ?_, ?_⟩
  · rw [List.all_append, hdigits.1, Bool.true_and, List.all_eq_true]
    intro c hc
    rw [List.eq_of_mem_replicate hc]
    rfl
  · simp [Nat.toDigits_ne_nil]
  · intro hhead
    rw [head?_toDigits_append] at hhead
    have hzero := hdigits.2.2 hhead
    rw [h (eq_zero_of_toDigits hzero), hzero]
    rfl

/-- The digits of a number with zeros in front, so that one stands before the last few. -/
def padded (units behind : Nat) : List Char :=
  List.replicate (behind + 1 - (Nat.toDigits 10 units).length) '0' ++ Nat.toDigits 10 units

theorem isDigit_of_mem_padded {units behind : Nat} {c : Char} (h : c ∈ padded units behind) :
    c.isDigit = true := by
  rcases List.mem_append.1 h with h | h
  · rw [List.eq_of_mem_replicate h]
    rfl
  · exact List.all_eq_true.1 (isWhole_toDigits units).1 c h

theorem length_padded (units behind : Nat) :
    (padded units behind).length = max (behind + 1) (Nat.toDigits 10 units).length := by
  rw [padded, List.length_append, List.length_replicate]
  omega

/-- No zeros are put in front of digits that are enough. -/
theorem padded_eq {units behind : Nat} (h : behind < (Nat.toDigits 10 units).length) :
    padded units behind = Nat.toDigits 10 units := by
  rw [padded, show behind + 1 - (Nat.toDigits 10 units).length = 0 by omega]
  rfl

/-- What stands before the last few digits is a whole part. -/
theorem isWhole_take_padded (units behind : Nat) :
    IsWhole ((padded units behind).take ((padded units behind).length - behind)) := by
  have hlength := length_padded units behind
  refine ⟨?_, ?_, ?_⟩
  · exact List.all_eq_true.2 fun c hc => isDigit_of_mem_padded (List.mem_of_mem_take hc)
  · intro hnil
    have hzero := congrArg List.length hnil
    rw [List.length_take, List.length_nil] at hzero
    omega
  · intro hhead
    rcases Nat.lt_or_ge behind (Nat.toDigits 10 units).length with hlt | hge
    · -- no zero was put in front, and the first digit is no zero unless it is the only one
      rw [List.head?_take, if_neg (by omega), padded_eq hlt] at hhead
      have hone := congrArg List.length ((isWhole_toDigits units).2.2 hhead)
      have hlast : (padded units behind).length - behind = (padded units behind).length := by
        rw [List.length_singleton] at hone
        omega
      rw [hlast, List.take_length, padded_eq hlt]
      exact (isWhole_toDigits units).2.2 hhead
    · -- a single digit stands before the others
      have hone : (padded units behind).length - behind = 1 := by omega
      rw [hone] at hhead ⊢
      obtain ⟨c, cs, hc⟩ : ∃ c cs, padded units behind = c :: cs :=
        List.exists_cons_of_length_pos (by omega)
      rw [hc] at hhead ⊢
      simpa using hhead

/-- A point and the last few digits are a fraction. -/
theorem isFraction_drop_padded (units : Nat) {behind : Nat} (h : 0 < behind) :
    IsFraction ('.' :: (padded units behind).drop ((padded units behind).length - behind)) := by
  have hlength := length_padded units behind
  obtain ⟨d, ds, hds⟩ : ∃ d ds,
      (padded units behind).drop ((padded units behind).length - behind) = d :: ds := by
    refine List.exists_cons_of_length_pos ?_
    rw [List.length_drop]
    omega
  refine Or.inr ⟨d, ds, by rw [hds], List.all_eq_true.2 fun c hc => ?_⟩
  rw [← hds] at hc
  exact isDigit_of_mem_padded (List.mem_of_mem_drop hc)

/-- A number written without an exponent has a whole part and a fraction. -/
theorem positional_eq {units : Nat} {place : Int} (h : units = 0 → place ≤ 0) :
    ∃ ds fs, positional units place = ds ++ fs ∧ IsWhole ds ∧ IsFraction fs := by
  simp only [positional]
  split
  · next hplace =>
    have hzeros : IsWhole (Nat.toDigits 10 units ++ List.replicate place.toNat '0') :=
      isWhole_append_zeros fun hunits => Int.toNat_eq_zero.2 (h hunits)
    exact ⟨_, [], (List.append_nil _).symm, hzeros, Or.inl rfl⟩
  · next hplace =>
    exact ⟨_, _, rfl, isWhole_take_padded units _, isFraction_drop_padded units (by omega)⟩

/-- The name that the text of an infinite number is. -/
def infName : Name := ⟨"inf", by decide⟩

/-- The name behind the flaw that the text of a negative infinite number is. -/
def nfName : Name := ⟨"nf", by decide⟩

/-- What is spelled by the text of a binary number. -/
def floatKinds (b : Binary64) : List Kind :=
  match b with
  | .infinite false => [.token (.name infName)]
  | .infinite true => [.flaw (unexpectedInNumber 'i' ""), .token (.name nfName)]
  | .finite _ _ _ =>
    [.token (if b.text.toList.contains '.' then .float b.text else .int b.text)]

/-- The text of a finite number is a sign, a whole part and a fraction. -/
theorem text_finite_eq (isNegative : Bool) (significand : Nat) (exponent : Int) :
    ∃ ds fs, (finite isNegative significand exponent).text.toList =
      sign isNegative ++ (ds ++ fs) ∧ IsWhole ds ∧ IsFraction fs := by
  have hsign : ∀ cs : List Char, (if isNegative then '-' :: cs else cs) =
      sign isNegative ++ cs := by
    intro cs
    cases isNegative <;> rfl
  rw [Binary64.text, String.toList_ofList, hsign]
  by_cases h : significand = 0
  · exact ⟨['0'], [], by simp [h], ⟨by decide, by decide, fun _ => rfl⟩, Or.inl rfl⟩
  · have hwhole := dropZeros_whole 20
      (shortestFrom_whole h exponent (r := times (significand, 1) (power 2 exponent))
        (Nat.mul_pos Nat.one_pos (power_pos (by decide) _).2) 17 Nat.one_pos)
    obtain ⟨ds, fs, heq, hds, hfs⟩ := positional_eq hwhole
    refine ⟨ds, fs, ?_, hds, hfs⟩
    rw [if_neg h, ← heq]
    rfl

/-- A number has a point exactly if it has a fraction. -/
theorem contains_point_iff (isNegative : Bool) {ds fs : List Char} (hds : IsWhole ds)
    (hfs : IsFraction fs) : (sign isNegative ++ (ds ++ fs)).contains '.' = true ↔ fs ≠ [] := by
  have hwhole : '.' ∉ ds := fun hmem =>
    absurd (List.all_eq_true.1 hds.1 '.' hmem) (by decide)
  have hsign : '.' ∉ sign isNegative := by
    cases isNegative <;> decide
  rw [List.contains_iff_mem, List.mem_append, List.mem_append]
  rcases hfs with rfl | ⟨d, gs, rfl, -⟩
  · simp [hsign, hwhole]
  · simp

/-- A binary number is spelled as a number, as long as it is finite. -/
theorem spells_float (b : Binary64) : Spells b.text.toList (floatKinds b) := by
  cases b with
  | infinite isNegative =>
    cases isNegative with
    | false => exact spells_name infName
    | true =>
      -- the letter after the minus ends the flaw, and the other two are a name
      have hflaw : SpellsAlone ['-', 'i'] [.flaw (unexpectedInNumber 'i' "")] := fun rest =>
        kindsIn_lexeme '-' ['i'] (.flaw (unexpectedInNumber 'i' "")) rfl
          (fun _ _ => rfl) rfl (by simp)
      have htext : (infinite true).text.toList = ['-', 'i'] ++ nfName.text.toList := by decide
      rw [htext]
      exact hflaw.append (spells_name nfName)
  | finite isNegative significand exponent =>
    obtain ⟨ds, fs, htext, hds, hfs⟩ := text_finite_eq isNegative significand exponent
    have hspells := spells_number isNegative hds hfs
    have hpoint := contains_point_iff isNegative hds hfs
    have htoken : numberToken fs (sign isNegative ++ (ds ++ fs)) =
        if (finite isNegative significand exponent).text.toList.contains '.' then
          .float (finite isNegative significand exponent).text
        else .int (finite isNegative significand exponent).text := by
      rw [numberToken, ← htext, String.ofList_toList, htext]
      by_cases hfs : fs = []
      · rw [if_pos hfs, if_neg (mt hpoint.1 (by simp [hfs]))]
      · rw [if_neg hfs, if_pos (hpoint.2 hfs)]
    rw [htoken, ← htext] at hspells
    exact hspells

end SchemaCatalog.Document
