import Mathlib
import StaticAnalysis.Text.Blank
import StaticAnalysis.Text.Case
import StaticAnalysis.Text.Digit

/-!
# Reading texts

Names are read after their blanks were removed and their letters made small, and numbers are read
digit by digit.

* `isPlain` — small Latin letters, decimal digits and the dash; `plain_table` goes through them
  once, and no later proof looks into the tables of characters again.
* `trim_append`, `lower_of_sameLetters` — **blanks and capitals around a plain text make no
  difference.**
* `readDecimal?_toDigits` — a number that is written in decimal is read back.
* `readDecimal?_lt`, `readDecimal?_eq_none_iff` — how large numbers get, and which texts of digits
  are none.
-/

namespace StaticAnalysis.Text

/-! ### Plain characters -/

/-- Small Latin letters, decimal digits and the dash. -/
def isPlain (c : Char) : Bool := c.isLower || c.isDigit || c == '-'

/-- What the tables of characters say of the plain ones, and of their capitals. -/
def PlainFacts (c : Char) : Prop :=
  isBlank c = false ∧ isBlank c.toUpper = false ∧ lowerChar c = c ∧ lowerChar c.toUpper = c ∧
    c.toUpper.toNat < 128

instance (c : Char) : Decidable (PlainFacts c) :=
  inferInstanceAs (Decidable (isBlank c = false ∧ isBlank c.toUpper = false ∧ lowerChar c = c ∧
    lowerChar c.toUpper = c ∧ c.toUpper.toNat < 128))

theorem plain_table : ∀ n : Fin 128, isPlain (Char.ofNat n) = true → PlainFacts (Char.ofNat n) := by
  decide +kernel

theorem toNat_lt_of_isPlain {c : Char} (h : isPlain c = true) : c.toNat < 128 := by
  simp only [isPlain, Char.isLower, Char.isDigit, Bool.or_eq_true, Bool.and_eq_true,
    decide_eq_true_eq, beq_iff_eq, UInt32.le_iff_toNat_le] at h
  rcases h with (⟨-, h⟩ | ⟨-, h⟩) | rfl
  · exact Nat.lt_of_le_of_lt h (by decide)
  · exact Nat.lt_of_le_of_lt h (by decide)
  · decide

theorem plainFacts_of_isPlain {c : Char} (h : isPlain c = true) : PlainFacts c := by
  have facts := plain_table ⟨c.toNat, toNat_lt_of_isPlain h⟩
  rw [show Char.ofNat c.toNat = c from Char.ofNat_toNat c] at facts
  exact facts h

/-! ### Blanks around a text -/

/-- Nothing is dropped of a text that begins with a part in which nothing would be. -/
theorem dropWhile_append_of_none {p : Char → Bool} {cs ds : List Char} (hne : cs ≠ [])
    (h : ∀ c ∈ cs, p c = false) : (cs ++ ds).dropWhile p = cs ++ ds := by
  cases cs with
  | nil => exact absurd rfl hne
  | cons c cs =>
    apply List.dropWhile_cons_of_neg
    rw [h c List.mem_cons_self]
    exact Bool.false_ne_true

/-- A text without blanks is what remains when blanks around it are removed. -/
theorem trim_append {before cs after : List Char} (hbefore : ∀ c ∈ before, isBlank c = true)
    (hafter : ∀ c ∈ after, isBlank c = true) (hne : cs ≠ []) (hcs : ∀ c ∈ cs, isBlank c = false) :
    trim (before ++ cs ++ after) = cs := by
  have front : (before ++ cs ++ after).dropWhile isBlank = cs ++ after := by
    rw [List.append_assoc, List.dropWhile_append_of_pos hbefore, dropWhile_append_of_none hne hcs]
  have back : (cs ++ after).reverse.dropWhile isBlank = cs.reverse := by
    rw [List.reverse_append, List.dropWhile_append_of_pos fun c hc =>
      hafter c (List.mem_reverse.mp hc)]
    have whole : (cs.reverse ++ []).dropWhile isBlank = cs.reverse ++ [] :=
      dropWhile_append_of_none (mt List.reverse_eq_nil_iff.mp hne) fun c hc =>
        hcs c (List.mem_reverse.mp hc)
    rwa [List.append_nil] at whole
  rw [trim, front, back, List.reverse_reverse]

/-! ### Capitals -/

/-- A text in other letters: any of its Latin letters may be a capital. -/
def SameLetters (written cs : List Char) : Prop :=
  List.Forall₂ (fun w c => w = c ∨ w = c.toUpper) written cs

theorem SameLetters.refl (cs : List Char) : SameLetters cs cs := by
  induction cs with
  | nil => exact .nil
  | cons c cs ih => exact .cons (Or.inl rfl) ih

theorem SameLetters.ne_nil {written cs : List Char} (h : SameLetters written cs) (hne : cs ≠ []) :
    written ≠ [] := by
  cases h with
  | nil => exact absurd rfl hne
  | cons _ _ => exact List.cons_ne_nil _ _

theorem SameLetters.isBlank {written cs : List Char} (h : SameLetters written cs)
    (plain : ∀ c ∈ cs, isPlain c = true) : ∀ w ∈ written, isBlank w = false := by
  induction h with
  | nil => intro w hw; exact absurd hw List.not_mem_nil
  | @cons w c written cs same _ ih =>
    intro v hv
    rcases List.mem_cons.mp hv with rfl | hv
    · obtain ⟨small, capital, -⟩ := plainFacts_of_isPlain (plain c List.mem_cons_self)
      rcases same with rfl | rfl
      · exact small
      · exact capital
    · exact ih (fun d hd => plain d (List.mem_cons_of_mem c hd)) v hv

/-- A character of the first 128 has its lower case form whatever stands around it. -/
theorem lowerAfter_cons_ascii {c : Char} (h : c.toNat < 128) (before rest : List Char) :
    lowerAfter before (c :: rest) = lowerChar c :: lowerAfter (c :: before) rest := by
  have dotted : c ≠ capitalDottedI := by
    rintro rfl
    exact absurd h (by decide)
  have sigma : c ≠ capitalSigma := by
    rintro rfl
    exact absurd h (by decide)
  simp [lowerAfter, dotted, sigma]

theorem lowerAfter_of_sameLetters {written cs : List Char} (h : SameLetters written cs)
    (plain : ∀ c ∈ cs, isPlain c = true) : ∀ before, lowerAfter before written = cs := by
  induction h with
  | nil => intro before; rfl
  | @cons w c written cs same _ ih =>
    intro before
    have hc := plain c List.mem_cons_self
    obtain ⟨-, -, small, capital, bound⟩ := plainFacts_of_isPlain hc
    have ascii : w.toNat < 128 := by
      rcases same with rfl | rfl
      · exact toNat_lt_of_isPlain hc
      · exact bound
    have letter : lowerChar w = c := by
      rcases same with rfl | rfl
      · exact small
      · exact capital
    rw [lowerAfter_cons_ascii ascii, letter, ih fun d hd => plain d (List.mem_cons_of_mem c hd)]

/-- **Capitals make no difference to a plain text.** -/
theorem lower_of_sameLetters {written cs : List Char} (h : SameLetters written cs)
    (plain : ∀ c ∈ cs, isPlain c = true) : lower written = cs :=
  lowerAfter_of_sameLetters h plain []

/-! ### Numbers -/

theorem decimal?_digitChar : ∀ d : Fin 10, decimal? (Nat.digitChar d) = some d.val := by
  decide +kernel

theorem decimal?_lt {c : Char} {d : Nat} (h : decimal? c = some d) : d < 10 := by
  obtain ⟨r, -, rfl⟩ := Option.map_eq_some_iff.mp h
  exact Nat.mod_lt _ (by decide)

theorem decimal?_of_isDigit {c : Char} (h : c.isDigit = true) :
    decimal? c = some (c.toNat - 48) := by
  have bounds : 48 ≤ c.toNat ∧ c.toNat ≤ 57 := by
    simp only [Char.isDigit, Bool.and_eq_true, decide_eq_true_eq, ge_iff_le,
      UInt32.le_iff_toNat_le] at h
    exact h
  have same : Nat.digitChar (c.toNat - 48) = c := by
    apply Char.toNat_inj.mp
    rw [Nat.toNat_digitChar_of_lt_ten (by omega)]
    omega
  have value := decimal?_digitChar ⟨c.toNat - 48, by omega⟩
  rwa [same] at value

/-- Reading digits is what printing them undoes. -/
theorem readDecimalFrom?_of_isDigit {cs : List Char} (h : ∀ c ∈ cs, c.isDigit = true) :
    ∀ read, readDecimalFrom? read cs = some (Nat.ofDigitChars 10 cs read) := by
  induction cs with
  | nil => intro read; rfl
  | cons c cs ih =>
    intro read
    rw [readDecimalFrom?, decimal?_of_isDigit (h c List.mem_cons_self), Option.bind_some,
      ih fun d hd => h d (List.mem_cons_of_mem c hd), Nat.ofDigitChars_cons]
    rfl

theorem isDigit_of_mem_toDigits {k : Nat} : ∀ c ∈ Nat.toDigits 10 k, c.isDigit = true :=
  fun _ hc => Nat.isDigit_of_mem_toDigits (by decide) (by decide) hc

/-- **A number that is written in decimal is read back.** -/
theorem readDecimal?_toDigits (k : Nat) : readDecimal? (Nat.toDigits 10 k) = some k := by
  have hne : ¬ (Nat.toDigits 10 k).isEmpty = true := by simp
  rw [readDecimal?, if_neg hne, readDecimalFrom?_of_isDigit isDigit_of_mem_toDigits,
    Nat.ofDigitChars_ten_toDigits]

theorem decimalRun_of_decimal {cs : List Char} (h : ∀ c ∈ cs, (decimal? c).isSome = true) :
    decimalRun cs = cs.length := by
  rw [decimalRun, List.takeWhile_eq_self_iff.mpr h]

theorem decimalRun_toDigits (k : Nat) :
    decimalRun (Nat.toDigits 10 k) = (Nat.toDigits 10 k).length := by
  apply decimalRun_of_decimal
  intro c hc
  rw [decimal?_of_isDigit (isDigit_of_mem_toDigits c hc)]
  rfl

theorem isDigits_toDigits (k : Nat) : isDigits (Nat.toDigits 10 k) = true := by
  have digits : (Nat.toDigits 10 k).all isDigit = true := by
    rw [List.all_eq_true]
    intro c hc
    rw [isDigit, decimal?_of_isDigit (isDigit_of_mem_toDigits c hc)]
    rfl
  rw [isDigits, digits]
  simp

theorem readDecimalFrom?_eq_none_iff {cs : List Char} :
    ∀ {read : Nat}, readDecimalFrom? read cs = none ↔ ∃ c ∈ cs, decimal? c = none := by
  induction cs with
  | nil => simp [readDecimalFrom?]
  | cons c cs ih =>
    intro read
    cases h : decimal? c with
    | none => simp [readDecimalFrom?, h]
    | some d => simp [readDecimalFrom?, h, ih]

/-- A text of digits is no number if one of them has no decimal value. -/
theorem readDecimal?_eq_none_iff {cs : List Char} (h : isDigits cs = true) :
    readDecimal? cs = none ↔ ∃ c ∈ cs, decimal? c = none := by
  have hne : ¬ cs.isEmpty = true := by
    rw [isDigits, Bool.and_eq_true, Bool.not_eq_true'] at h
    rw [h.1]
    exact Bool.false_ne_true
  rw [readDecimal?, if_neg hne, readDecimalFrom?_eq_none_iff]

theorem readDecimalFrom?_lt {cs : List Char} :
    ∀ {read n : Nat}, readDecimalFrom? read cs = some n → n < (read + 1) * 10 ^ cs.length := by
  induction cs with
  | nil =>
    intro read n h
    cases h
    simp
  | cons c cs ih =>
    intro read n h
    rw [readDecimalFrom?] at h
    obtain ⟨d, hd, h⟩ := Option.bind_eq_some_iff.mp h
    have small := decimal?_lt hd
    calc n < (10 * read + d + 1) * 10 ^ cs.length := ih h
      _ ≤ ((read + 1) * 10) * 10 ^ cs.length := Nat.mul_le_mul_right _ (by omega)
      _ = (read + 1) * 10 ^ (c :: cs).length := by
        rw [List.length_cons, Nat.pow_succ, Nat.mul_assoc, Nat.mul_comm 10]

/-- A text of so many digits writes a number that has no more of them. -/
theorem readDecimal?_lt {cs : List Char} {n : Nat} (h : readDecimal? cs = some n) :
    n < 10 ^ decimalRun cs := by
  rw [readDecimal?] at h
  split at h
  · contradiction
  · have decimals : ∀ c ∈ cs, (decimal? c).isSome = true := by
      intro c hc
      rw [Option.isSome_iff_ne_none]
      intro none
      rw [readDecimalFrom?_eq_none_iff.mpr ⟨c, hc, none⟩] at h
      contradiction
    have bound := readDecimalFrom?_lt h
    rwa [Nat.zero_add, Nat.one_mul, ← decimalRun_of_decimal decimals] at bound

end StaticAnalysis.Text
