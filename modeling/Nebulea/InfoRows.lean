import Nebulea.InfoDisplay

/-!
# The rows of the information display

A row shows its entries one after the other, as many as fit as a whole, and
blanks after them.  A number is shown by its decimal digits.
-/

namespace Nebulea

open Positional

/-! ## Entries that fit -/

/-- The entries that are shown in the room of a row: the first one that does
not fit and all that follow are left out. -/
def fitting : Nat → List Chars → List Chars
  | _, [] => []
  | room, entry :: entries =>
      if entry.length ≤ room then
        entry :: fitting (room - entry.length) entries
      else []

theorem fitting_length (room : Nat) (entries : List Chars) :
    (fitting room entries).flatten.length ≤ room := by
  induction entries generalizing room with
  | nil => simp [fitting]
  | cons entry entries ih =>
      rw [fitting]
      split
      · have rest := ih (room - entry.length)
        rw [List.flatten_cons, List.length_append]
        omega
      · simp

/-- What is printed for an entry. -/
def entryText (entry : Chars × Arguments) : Chars :=
  (doprnt entry.1 entry.2 0).text

/-- The entry is printed, and with its zero it fits in the buffer of 128
bytes. -/
structure Printable (entry : Chars × Arguments) : Prop where
  returns : (doprnt entry.1 entry.2 0).fault = none
  fits : (entryText entry).length < 128

namespace Screen

variable {screen first : Screen} {line : Nat}

theorem writeEntry_eq (stack : Nat → BitVec 8) (line : Nat)
    (out : Screen × Nat) {entry : Chars × Arguments}
    (printable : Printable entry) :
    ∃ buffer : Nat → BitVec 8,
      (∀ i < (entryText entry).length,
        buffer i = (entryText entry).getD i 0) ∧
      writeEntry stack line out entry =
        (out.1.writeInfo line out.2 buffer (entryText entry).length,
          out.2 + (entryText entry).length) := by
  have fits := printable.fits
  unfold entryText at fits
  obtain ⟨buffer, result, -, saved⟩ :=
    vsprintf_text stack 0 entry.1 entry.2 printable.returns (by omega)
  refine ⟨buffer, fun i before => ?_, ?_⟩
  · have isSaved := saved i before
    rwa [Nat.zero_add] at isSaved
  · simp only [writeEntry, result]
    rfl

/-- No entry is shown once the row is full. -/
theorem writeEntries_full (stack : Nat → BitVec 8) {position : Nat}
    (full : 80 < position) {entries : List (Chars × Arguments)}
    (printable : ∀ entry ∈ entries, Printable entry) :
    (entries.foldl (writeEntry stack line) (screen, position)).1 = screen := by
  induction entries generalizing position with
  | nil => rfl
  | cons entry entries ih =>
      obtain ⟨buffer, -, result⟩ :=
        writeEntry_eq stack line (screen, position) (printable entry (by simp))
      rw [List.foldl_cons, result, writeInfo_full screen buffer (by simp; omega)]
      exact ih (by simp; omega) fun other member =>
        printable other (by simp [member])

theorem paints_writeEntries (screen : Screen) (stack : Nat → BitVec 8)
    (low : line < 25)
    {position : Nat} (inside : position ≤ 80)
    {entries : List (Chars × Arguments)}
    (printable : ∀ entry ∈ entries, Printable entry) :
    screen.Paints
      (entries.foldl (writeEntry stack line) (screen, position)).1 line
      (fun col => position ≤ col ∧ col < position +
        (fitting (80 - position) (entries.map entryText)).flatten.length)
      (fun col => screen.glyph
        ((fitting (80 - position) (entries.map entryText)).flatten.getD
          (col - position) 0)) := by
  induction entries generalizing screen position with
  | nil =>
      refine (Paints.nothing screen line fun _ => 0).congr ?_ ?_
      · intro col _
        simp [fitting]
      · rintro col - ⟨above, below⟩
        simp [fitting] at below
        omega
  | cons entry entries ih =>
      have others (other) (member : other ∈ entries) : Printable other :=
        printable other (by simp [member])
      obtain ⟨buffer, saved, result⟩ :=
        writeEntry_eq stack line (screen, position) (printable entry (by simp))
      simp only at result
      rw [List.foldl_cons, result, List.map_cons, fitting]
      by_cases fits : (entryText entry).length ≤ 80 - position
      · rw [if_pos fits, List.flatten_cons, List.length_append]
        have head := paints_writeInfo screen line position buffer
          (entryText entry).length low (by omega)
        have tail := ih (screen.writeInfo line position buffer
          (entryText entry).length)
          (show position + (entryText entry).length ≤ 80 by omega) others
        rw [Nat.sub_add_eq]  at tail
        generalize (fitting (80 - position - (entryText entry).length)
          (entries.map entryText)).flatten = rest at tail ⊢
        generalize screen.writeInfo line position buffer
          (entryText entry).length = now at head tail ⊢
        generalize (entries.foldl (writeEntry stack line)
          (now, position + (entryText entry).length)).1 = last at tail ⊢
        refine ⟨head.same.trans tail.same, ?_, ?_⟩
        · rintro col left ⟨above, below⟩
          by_cases inHead : col < position + (entryText entry).length
          · rw [tail.outside line col left (by omega),
              head.inside col left ⟨above, inHead⟩, saved _ (by omega),
              List.getD_append _ _ _ _ (by omega)]
          · rw [tail.inside col left ⟨by omega, by omega⟩,
              head.same.glyph, List.getD_append_right _ _ _ _ (by omega),
              Nat.sub_add_eq]
        · intro row col left other
          rw [tail.outside row col left (by omega),
            head.outside row col left (by omega)]
      · rw [if_neg fits, writeInfo_full screen buffer (by omega),
          writeEntries_full stack (by omega) others]
        refine (Paints.nothing screen line fun _ => 0).congr ?_ ?_
        · intro col _
          simp
        · rintro col - ⟨above, below⟩
          simp at below
          omega

/-- A row after its title. -/
def rowWord (screen : Screen) (text : Chars) (i : Nat) : Nat :=
  if i < text.length then screen.glyph (text.getD i 0) else blank

/-- A row shows the entries that fit. -/
theorem paints_writeRow (screen : Screen) (line title : Nat)
    (stack : Nat → BitVec 8) (low : line < 25) (short : title ≤ 80)
    {entries : List (Chars × Arguments)}
    (printable : ∀ entry ∈ entries, Printable entry) :
    screen.Paints (screen.writeRow stack line title entries) line (title ≤ ·)
      (fun col => screen.rowWord
        (fitting (80 - title) (entries.map entryText)).flatten
        (col - title)) := by
  have clears := paints_loop screen
    (fun screen i => screen.writeCar line ((title + i) % 0x100) 32 15 0)
    (fun i => (title + i) % 0x100) (fun _ => 32) 15 0 (fun _ => blank)
    nbColumns low
    (fun _ _ _ _ => rfl) (fun _ _ => by decide)
  unfold writeRow
  simp only
  generalize (List.range nbColumns).foldl
    (fun screen i => screen.writeCar line ((title + i) % 0x100) 32 15 0)
      screen = now at clears ⊢
  have shows := paints_writeEntries now stack low short printable
  have size := fitting_length (80 - title) (entries.map entryText)
  generalize (fitting (80 - title) (entries.map entryText)).flatten = text
    at shows size ⊢
  refine ⟨clears.same.trans shows.same, ?_, ?_⟩
  · intro col left above
    unfold rowWord
    by_cases shown : col - title < text.length
    · rw [if_pos shown, shows.inside col left ⟨above, by omega⟩,
        clears.same.glyph]
    · rw [if_neg shown, shows.outside line col left (by omega)]
      refine clears.inside col left ⟨col - title, ?_, ?_⟩
      · unfold nbColumns
        omega
      · rw [Nat.mod_eq_of_lt (by omega)]
        omega
  · intro row col left other
    rw [shows.outside row col left (by omega),
      clears.outside row col left]
    rintro ⟨isLine, i, less, isCol⟩
    unfold nbColumns at less
    rw [Nat.mod_eq_of_lt (by omega)] at isCol
    exact other ⟨isLine, by omega⟩

end Screen

/-! ## The text of the entries -/

theorem room_start (u base : Nat) :
    Directive.start.zeros u base ≤ 0 ∧ Directive.start.room none u base ≤ 0 := by
  unfold Directive.room Directive.zeros Directive.start
  simp only [Option.toList_none, List.length_nil]
  constructor
  · omega
  · split <;> omega

theorem padding_nonpos {length : Int} (no : length ≤ 0) (c : BitVec 8) :
    padding length c = [] := by
  rw [padding, Int.toNat_of_nonpos no, List.replicate_zero]

/-- Without flags, width and precision there are only digits. -/
theorem numberText_start (u base : Nat) :
    numberText .start none u base = digitsOf u base := by
  obtain ⟨noZeros, noRoom⟩ := room_start u base
  have distinct : Directive.start.padc ≠ ascii '0' := by decide
  have right : Directive.start.ladjust = false := rfl
  have none : Directive.start.altPrefix u base = [] := by
    simp [Directive.altPrefix, Directive.start]
  unfold numberText
  simp [none, distinct, right, padding_nonpos noZeros, padding_nonpos noRoom]

/-- The number is positive as an `int`. -/
theorem toInt_ofNat {n : Nat} (small : n < 2 ^ 31) :
    (BitVec.ofNat 32 n).toInt = n := by
  have size : (BitVec.ofNat 32 n).toNat = n := by
    rw [BitVec.toNat_ofNat]
    omega
  rw [BitVec.toInt_eq_toNat_of_lt (by omega), size]

/-- `%d` without flags, width and precision. -/
theorem doprntRest_number {args : Arguments} {radix next n : Nat}
    (isWord : args.word next = BitVec.ofNat 32 n) (small : n < 2 ^ 31)
    (fmt : Chars) :
    doprntRest args radix (ascii '%' :: ascii 'd' :: fmt) next =
      .after (digitsOf n 10) (doprntRest args radix fmt (next + 1)) := by
  have isRead : readDirective args (ascii 'd' :: fmt) next =
      (.start, ascii 'd' :: fmt, next) := rfl
  have isNumber : conversionBase (ascii 'd') = some (true, 10) := by decide
  obtain ⟨decimal, converted⟩ :=
    convert_number args radix next .start isNumber
  have positive := toInt_ofNat small
  have size : (BitVec.ofNat 32 n).toNat = n := by
    rw [BitVec.toNat_ofNat]
    omega
  have noSign : Directive.start.sign true (BitVec.ofNat 32 n) = none := by
    simp [Directive.sign, positive, Directive.start]
  have same : magnitude true (BitVec.ofNat 32 n) = n := by
    rw [magnitude, if_neg (by omega), size]
  rw [doprntRest_directive isRead, converted, isWord, printNumber_eq decimal,
    noSign, same, numberText_start]
  simp

/-- `%s` without flags, width and precision. -/
theorem doprntRest_string {args : Arguments} {radix next : Nat}
    (notNull : args.word next ≠ 0)
    (short : (args.string (args.word next)).length < 0x7fffffff)
    (fmt : Chars) :
    doprntRest args radix (ascii '%' :: ascii 's' :: fmt) next =
      .after (args.string (args.word next))
        (doprntRest args radix fmt (next + 1)) := by
  have isRead : readDirective args (ascii 's' :: fmt) next =
      (.start, ascii 's' :: fmt, next) := rfl
  have shown : printString .start (args.string (args.word next)) =
      args.string (args.word next) := by
    have whole : (args.string (args.word next)).take 0x7fffffff =
        args.string (args.word next) :=
      List.take_of_length_le short.le
    simp [printString, Directive.start, whole]
  have converted : convert args radix .start (ascii 's') next =
      (⟨args.string (args.word next), none⟩, next + 1) := by
    have isString : convert args radix .start (ascii 's') next =
        (⟨printString .start
          (if args.word next = 0 then [] else args.string (args.word next)),
          none⟩, next + 1) := rfl
    rw [isString, if_neg notNull, shown]
  rw [doprntRest_directive isRead, converted]
  simp

end Nebulea
