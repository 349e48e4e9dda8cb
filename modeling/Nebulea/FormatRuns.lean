import Nebulea.FormatLaws

/-!
# Runs through a format

`_doprnt` goes through its format from left to right, and what it prints from
some place on depends on the rest of the format and on the next argument only.
The number of a conversion stands in the output in the width that was asked
for, and the functions that read numbers find it there.
-/

namespace Nebulea

/-! ## What a directive leaves -/

theorem readFlags_length (fmt : Chars) (d : Directive) :
    (readFlags fmt d).2.length ≤ fmt.length := by
  induction fmt generalizing d with
  | nil => exact Nat.le_refl _
  | cons c fmt ih =>
      have shorter (d : Directive) :
          (readFlags fmt d).2.length ≤ (c :: fmt).length :=
        (ih d).trans (by simp)
      rw [readFlags]
      split_ifs <;> first | exact shorter _ | exact Nat.le_refl _

theorem readDecimal_length (fmt : Chars) (n : Int) :
    (readDecimal fmt n).2.length ≤ fmt.length := by
  induction fmt generalizing n with
  | nil => exact Nat.le_refl _
  | cons c fmt ih =>
      rw [readDecimal]
      split
      · exact (ih _).trans (by simp)
      · exact Nat.le_refl _

theorem readWidth_length (args : Arguments) (d : Directive) (fmt : Chars)
    (next : Nat) :
    (readWidth args d fmt next).2.1.length ≤ fmt.length := by
  have tail : fmt.tail.length ≤ fmt.length := by simp
  unfold readWidth
  split_ifs
  · exact readDecimal_length fmt 0
  · simp only
    split_ifs <;> exact tail
  · exact Nat.le_refl _

theorem readPrecision_length (args : Arguments) (d : Directive) (fmt : Chars)
    (next : Nat) :
    (readPrecision args d fmt next).2.1.length ≤ fmt.length := by
  have tail : fmt.tail.length ≤ fmt.length := by simp
  have tails : fmt.tail.tail.length ≤ fmt.length := by simp; omega
  unfold readPrecision
  split
  · simp only
    split_ifs
    · exact (readDecimal_length fmt.tail 0).trans tail
    · exact tails
    · exact tail
  · exact Nat.le_refl _

theorem readDirective_length (args : Arguments) (fmt : Chars) (next : Nat) :
    (readDirective args fmt next).2.1.length ≤ fmt.length := by
  have flags := readFlags_length fmt .start
  unfold readDirective
  generalize readFlags fmt .start = afterFlags at flags ⊢
  obtain ⟨d, rest⟩ := afterFlags
  simp only
  generalize isZero : (if firstChar rest = ascii '0' then
    ({ d with padc := ascii '0' }, rest.tail) else (d, rest)) = afterZero
  obtain ⟨d', rest'⟩ := afterZero
  have zero : rest'.length ≤ rest.length := by
    split at isZero <;> cases isZero <;> simp
  have width := readWidth_length args d' rest' next
  generalize readWidth args d' rest' next = afterWidth at width ⊢
  obtain ⟨d'', rest'', next''⟩ := afterWidth
  have precision := readPrecision_length args d'' rest'' next''
  generalize readPrecision args d'' rest'' next'' = afterPrecision
    at precision ⊢
  obtain ⟨d₃, rest₃, next₃⟩ := afterPrecision
  simp only at flags width precision ⊢
  split_ifs
  · rw [List.length_tail]
    omega
  · omega

/-- More turns than characters make no difference. -/
theorem doprntLoop_enough (args : Arguments) (radix : Nat) {fuel : Nat}
    {fmt : Chars} {next : Nat} (enough : fmt.length ≤ fuel) :
    doprntLoop args radix fuel fmt next =
      doprntLoop args radix fmt.length fmt next := by
  induction fuel using Nat.strong_induction_on generalizing fmt next with
  | _ fuel ih =>
      cases fmt with
      | nil => cases fuel <;> rfl
      | cons c fmt =>
          obtain ⟨fuel, rfl⟩ : ∃ less, fuel = less + 1 :=
            ⟨fuel - 1, by simp at enough; omega⟩
          have inside : fmt.length ≤ fuel := by simpa using enough
          have same {rest : Chars} {next : Nat}
              (shorter : rest.length ≤ fmt.length) :
              doprntLoop args radix fuel rest next =
                doprntLoop args radix fmt.length rest next := by
            rw [ih fuel (Nat.lt_succ_self _) (shorter.trans inside)]
            by_cases full : fmt.length < fuel + 1
            · rw [ih fmt.length full shorter]
            · omega
          have left := readDirective_length args fmt next
          rw [List.length_cons, doprntLoop, doprntLoop]
          generalize readDirective args fmt next = directive at left ⊢
          obtain ⟨d, rest, next'⟩ := directive
          simp only
          split
          · rw [same (Nat.le_refl _)]
          cases rest with
          | nil => rfl
          | cons c rest =>
              simp only at left ⊢
              rw [same (Nat.le_of_succ_le left)]

/-- What is printed for the rest of a format. -/
def doprntRest (args : Arguments) (radix : Nat) (fmt : Chars) (next : Nat) :
    Printed :=
  doprntLoop args radix fmt.length fmt next

theorem doprntRest_nil (args : Arguments) (radix next : Nat) :
    doprntRest args radix [] next = ⟨[], none⟩ :=
  rfl

/-- A character that is not a percent sign is printed. -/
theorem doprntRest_char {args : Arguments} {radix next : Nat} {c : BitVec 8}
    {fmt : Chars} (plain : c ≠ ascii '%') :
    doprntRest args radix (c :: fmt) next =
      .after [c] (doprntRest args radix fmt next) := by
  rw [doprntRest, List.length_cons, doprntLoop]
  simp only [if_pos plain]
  rfl

/-- A directive is read, and its conversion is printed. -/
theorem doprntRest_directive {args : Arguments} {radix next : Nat}
    {spec : Chars} {d : Directive} {c : BitVec 8} {fmt : Chars}
    {next' : Nat}
    (isRead : readDirective args spec next = (d, c :: fmt, next')) :
    doprntRest args radix (ascii '%' :: spec) next =
      if (convert args radix d c next').1.fault ≠ none then
        (convert args radix d c next').1
      else
        .after (convert args radix d c next').1.text
          (doprntRest args radix fmt (convert args radix d c next').2) := by
  have shorter : fmt.length ≤ spec.length := by
    have left := readDirective_length args spec next
    rw [isRead] at left
    exact Nat.le_of_succ_le left
  rw [doprntRest, List.length_cons, doprntLoop]
  simp only [ne_eq, not_true_eq_false, if_false, isRead]
  rw [doprntLoop_enough args radix shorter]
  rfl

/-! ## Conversions of numbers -/

/-- The conversions that print a number in a fixed base: whether the argument
is signed, and the base. -/
def conversionBase (c : BitVec 8) : Option (Bool × Nat) :=
  if c = ascii 'd' ∨ c = ascii 'i' ∨ c = ascii 'D' then some (true, 10)
  else if c = ascii 'z' ∨ c = ascii 'Z' then some (true, 16)
  else if c = ascii 'u' ∨ c = ascii 'U' then some (false, 10)
  else if c = ascii 'o' ∨ c = ascii 'O' then some (false, 8)
  else if c = ascii 'x' ∨ c = ascii 'X' then some (false, 16)
  else none

/-- What a conversion of a number prints. -/
def printNumber (d : Directive) (signed : Bool) (base : Nat)
    (word : BitVec 32) : Printed :=
  if signed then printSigned d word base else printUnsigned d word base

theorem convert_number (args : Arguments) (radix next : Nat) (d : Directive)
    {c : BitVec 8} {signed : Bool} {base : Nat}
    (number : conversionBase c = some (signed, base)) :
    PrintBase base ∧ convert args radix d c next =
      (printNumber d signed base (args.word next), next + 1) := by
  unfold conversionBase at number
  split_ifs at number with decimal hexadecimal natural octal plain <;>
    cases number
  · refine ⟨.inr (.inl rfl), ?_⟩
    rcases decimal with rfl | rfl | rfl <;> rfl
  · refine ⟨.inr (.inr rfl), ?_⟩
    rcases hexadecimal with rfl | rfl <;> rfl
  · refine ⟨.inr (.inl rfl), ?_⟩
    rcases natural with rfl | rfl <;> rfl
  · refine ⟨.inl rfl, ?_⟩
    rcases octal with rfl | rfl <;> rfl
  · refine ⟨.inr (.inr rfl), ?_⟩
    rcases plain with rfl | rfl <;> rfl

/-- The sign before a number. -/
def Directive.sign (d : Directive) (signed : Bool) (word : BitVec 32) :
    Option (BitVec 8) :=
  if signed then
    if 0 ≤ word.toInt then d.plusSign else some (ascii '-')
  else none

/-- The number whose digits are printed. -/
def magnitude (signed : Bool) (word : BitVec 32) : Nat :=
  if signed ∧ word.toInt < 0 then (-word).toNat else word.toNat

theorem magnitude_lt (signed : Bool) (word : BitVec 32) :
    magnitude signed word < 2 ^ 32 := by
  unfold magnitude
  split
  · exact (-word).isLt
  · exact word.isLt

theorem printNum_eq {base u : Nat} (printed : PrintBase base)
    (word : u < 2 ^ 32) (d : Directive) (signChar : Option (BitVec 8)) :
    printNum d signChar u base = ⟨numberText d signChar u base, none⟩ := by
  simp only [printNum, digitFault_eq_none printed word]

theorem printNumber_eq {base : Nat} (printed : PrintBase base) (d : Directive)
    (signed : Bool) (word : BitVec 32) :
    printNumber d signed base word =
      ⟨numberText d (d.sign signed word) (magnitude signed word) base,
        none⟩ := by
  rw [← printNum_eq printed (magnitude_lt signed word)]
  unfold printNumber Directive.sign magnitude
  by_cases isSigned : signed = true
  · by_cases positive : 0 ≤ word.toInt
    · have notNegative : ¬ word.toInt < 0 := by omega
      simp only [isSigned, printSigned, positive, notNegative, if_true,
        and_false, if_false]
    · have negative : word.toInt < 0 := by omega
      simp only [isSigned, printSigned, positive, negative, if_true, if_false,
        and_self]
  · simp only [isSigned, printUnsigned]
    rfl

end Nebulea
