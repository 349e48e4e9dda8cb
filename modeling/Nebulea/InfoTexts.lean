import Nebulea.InfoRows
import Nebulea.KernelGenerations
import Nebulea.KernelSleepers

/-!
# What the information display says

The texts of the rows in terms of the kernel's tables and lists, and the time
as a function of the number of ticks.
-/

namespace Nebulea

open Positional ExceptState

/-! ## Pids -/

section Pids

variable {s : KState} {m : Move}

/-- Every record has the pid of an entry of the table, finished ones too. -/
def PidsOk (s : KState) : Prop :=
  ∀ r p, s.procs r = some p → 0 ≤ p.pid ∧ p.pid < nbProc

theorem PidsOk.move (pids : PidsOk s) (ok : Coherent s)
    (applies : m.Guard s) : PidsOk (m.effect s) := by
  intro r n found
  by_cases lived : s.procs r = none
  swap
  · obtain ⟨p, record, samePid, -⟩ := Move.father_before ok applies found lived
    rw [samePid]
    exact pids r p record
  obtain old | ⟨rfl, creates⟩ := Move.old_record ok applies (x := r) (m := m)
    (by simp [found])
  · exact absurd lived old
  cases m with
  | create pid prio p children =>
      obtain ⟨-, onCpu, -, -, nonneg, below, -⟩ := applies
      rw [Move.create_procs (ok.lt_nextRef onCpu.1).ne, if_pos rfl] at found
      cases found
      exact ⟨nonneg, below⟩
  | createElect pid prio p children =>
      obtain ⟨-, onCpu, -, -, nonneg, below, -⟩ := applies
      rw [Move.createElect_procs (ok.lt_nextRef onCpu.1).ne, if_pos rfl]
        at found
      cases found
      exact ⟨nonneg, below⟩
  | _ => cases creates

theorem Run.pidsOk {apps : List String}
    (run : Run (fun _ _ => True) (bootState apps) s) : PidsOk s := by
  induction run with
  | refl =>
      intro r p record
      rcases bootState_procs record with ⟨-, rfl⟩ | ⟨-, rfl⟩
      · decide
      · decide
  | step front _ next pids =>
      exact (front.settled bootState_settled).keeps next
        (fun u m sound _ applies pids => pids.move sound.coherent applies) pids

end Pids

/-! ## Texts of entries -/

/-- A number and a space. -/
def numberEntry (n : Nat) : Chars :=
  digitsOf n 10 ++ cString " "

/-- A pid and the state of the process. -/
def stateEntry (n : Nat) (state : State) : Chars :=
  digitsOf n 10 ++ cString ":" ++ stateToString state ++ cString " "

/-- The processes shown, in the order of their pids. -/
def KState.shownProcesses (s : KState) : List Chars :=
  (List.range nbProc).filterMap fun (i : Nat) => do
    let r ← s.processTable i
    let p ← s.procs r
    if p.state = .zombie then none else some (stateEntry i p.state)

/-- The queues in use, by their numbers. -/
def KState.shownQueues (s : KState) : List Chars :=
  (List.range nbQueue).filterMap fun (i : Nat) =>
    (s.queueTable i).map fun _ => numberEntry i

/-- The pids of the processes in a list. -/
def KState.shownList (s : KState) (h : Head) : List Chars :=
  (s.lists h).filterMap fun r => (s.procs r).map fun p =>
    numberEntry p.pid.toNat

theorem digitsOf_length {n : Nat} (small : n < 2 ^ 31) :
    (digitsOf n 10).length ≤ 32 := by
  have enough : n < 10 ^ maxBuf := lt_of_lt_of_le small (by decide)
  obtain ⟨front, isNumeral, -, size, -⟩ :=
    numeral_eq_append (show 0 < 10 by decide) maxBuf n [] enough (by decide)
  rw [digitsOf, List.length_map, isNumeral, List.append_nil]
  exact size

theorem doprnt_numberEntry {n : Nat} (small : n < 2 ^ 31) :
    doprnt (cString "%d ") (numberArguments n) 0 = ⟨numberEntry n, none⟩ := by
  have isWord : (numberArguments n).word 0 = BitVec.ofNat 32 n :=
    BitVec.ofInt_natCast 32 n
  have rest : doprntRest (numberArguments n) 0 (cString " ") 1 =
      ⟨cString " ", none⟩ := rfl
  calc doprnt (cString "%d ") (numberArguments n) 0
      = .after (digitsOf n 10)
          (doprntRest (numberArguments n) 0 (cString " ") 1) :=
        doprntRest_number isWord small (cString " ")
    _ = ⟨numberEntry n, none⟩ := by rw [rest]; rfl

theorem doprnt_stateEntry {n : Nat} (small : n < 2 ^ 31) (state : State) :
    doprnt (cString "%d:%s ") (stateArguments n state) 0 =
      ⟨stateEntry n state, none⟩ := by
  have short : (stateToString state).length < 0x7fffffff := by
    cases state <;> decide
  have notNull : (stateArguments n state).word 1 ≠ 0 := by
    simp [stateArguments]
  have rest : doprntRest (stateArguments n state) 0 (cString " ") 2 =
      ⟨cString " ", none⟩ := rfl
  have colon : ascii ':' ≠ ascii '%' := by decide
  calc doprnt (cString "%d:%s ") (stateArguments n state) 0
      = .after (digitsOf n 10) (doprntRest (stateArguments n state) 0
          (cString ":%s ") 1) :=
        doprntRest_number rfl small (cString ":%s ")
    _ = .after (digitsOf n 10) (.after (cString ":")
          (doprntRest (stateArguments n state) 0 (cString "%s ") 1)) :=
        congrArg _ (doprntRest_char colon)
    _ = .after (digitsOf n 10) (.after (cString ":")
          (.after (stateToString state)
            (doprntRest (stateArguments n state) 0 (cString " ") 2))) :=
        congrArg _ (congrArg _ (doprntRest_string notNull short (cString " ")))
    _ = ⟨stateEntry n state, none⟩ := by
        rw [rest]
        simp [Printed.after, stateEntry]

theorem printable_number {n : Nat} (small : n < 2 ^ 31) :
    Printable (cString "%d ", numberArguments n) := by
  have isText := doprnt_numberEntry small
  have size := digitsOf_length small
  refine ⟨by rw [isText], ?_⟩
  rw [entryText, isText, numberEntry, List.length_append]
  have one : (cString " ").length = 1 := rfl
  omega

theorem printable_state {n : Nat} (small : n < 2 ^ 31) (state : State) :
    Printable (cString "%d:%s ", stateArguments n state) := by
  have isText := doprnt_stateEntry small state
  have size := digitsOf_length small
  have name : (stateToString state).length ≤ 11 := by cases state <;> decide
  refine ⟨by rw [isText], ?_⟩
  rw [entryText, isText, stateEntry, List.length_append, List.length_append,
    List.length_append]
  have colon : (cString ":").length = 1 := rfl
  have space : (cString " ").length = 1 := rfl
  omega

section Tables

variable {s : KState}

/-- Entries made from the members of a list, and their texts. -/
theorem map_filterMap_text {α : Type} {xs : List α}
    {entry : α → Option (Chars × Arguments)} {text : α → Option Chars}
    (same : ∀ x ∈ xs, (entry x).map entryText = text x) :
    (xs.filterMap entry).map entryText = xs.filterMap text := by
  rw [List.map_filterMap]
  exact List.filterMap_congr same

theorem processEntries_text :
    (processEntries s).map entryText = s.shownProcesses := by
  refine map_filterMap_text fun i member => ?_
  have below := List.mem_range.mp member
  have small : i < 2 ^ 31 := below.trans (by decide)
  cases s.processTable i with
  | none => rfl
  | some r =>
      cases isRecord : s.procs r with
      | none => simp [isRecord]
      | some p =>
          by_cases zombie : p.state = .zombie
          · simp [isRecord, zombie]
          · have isText : entryText (cString "%d:%s ",
                stateArguments i p.state) = stateEntry i p.state := by
              rw [entryText, doprnt_stateEntry small]
            simp [isRecord, zombie, isText]

theorem processEntries_printable (entry : Chars × Arguments)
    (member : entry ∈ processEntries s) : Printable entry := by
  obtain ⟨i, inRange, isEntry⟩ := List.mem_filterMap.mp member
  have small : i < 2 ^ 31 := (List.mem_range.mp inRange).trans (by decide)
  cases isRef : s.processTable i with
  | none => simp [isRef] at isEntry
  | some r =>
      cases isRecord : s.procs r with
      | none => simp [isRef, isRecord] at isEntry
      | some p =>
          simp only [isRef, isRecord, Option.bind_eq_bind,
            Option.bind_some] at isEntry
          split at isEntry
          · cases isEntry
          · cases isEntry
            exact printable_state small p.state

/-- An entry of the queue table. -/
theorem queueEntry_eq (heap : HeapOk s) (i : Nat) :
    (do let q ← s.queueTable i
        let queue ← s.queues q
        some (cString "%d ", numberArguments queue.fid)) =
      (s.queueTable i).map fun _ => (cString "%d ", numberArguments i) := by
  cases isRef : s.queueTable i with
  | none => rfl
  | some q =>
      obtain ⟨-, -, content, isRecord, isFid⟩ := heap.queueTable i q isRef
      simp [isRecord, isFid]

theorem queueEntries_text (heap : HeapOk s) :
    (queueEntries s).map entryText = s.shownQueues := by
  refine map_filterMap_text fun i member => ?_
  have small : i < 2 ^ 31 := (List.mem_range.mp member).trans (by decide)
  have isText : entryText (cString "%d ", numberArguments i) =
      numberEntry i := by
    rw [entryText, doprnt_numberEntry small]
  rw [queueEntry_eq heap, Option.map_map]
  simp only [Function.comp_def, isText]

theorem queueEntries_printable (heap : HeapOk s) (entry : Chars × Arguments)
    (member : entry ∈ queueEntries s) : Printable entry := by
  obtain ⟨i, inRange, isEntry⟩ := List.mem_filterMap.mp member
  have small : i < 2 ^ 31 := (List.mem_range.mp inRange).trans (by decide)
  rw [queueEntry_eq heap] at isEntry
  obtain ⟨q, -, rfl⟩ := Option.map_eq_some_iff.mp isEntry
  exact printable_number small

/-- An entry of a list of processes. -/
theorem listEntry_eq (pids : PidsOk s) (r : ProcRef) :
    (do let p ← s.procs r
        some (cString "%d ", numberArguments p.pid)) =
      (s.procs r).map fun p =>
        (cString "%d ", numberArguments p.pid.toNat) := by
  cases isRecord : s.procs r with
  | none => rfl
  | some p =>
      have pid : (p.pid.toNat : Int) = p.pid :=
        Int.toNat_of_nonneg (pids r p isRecord).1
      simp only [Option.bind_eq_bind, Option.bind_some, Option.map_some, pid]

theorem PidsOk.small (pids : PidsOk s) {r : ProcRef} {p : Process}
    (record : s.procs r = some p) : p.pid.toNat < 2 ^ 31 := by
  have bounds := pids r p record
  unfold nbProc at bounds
  omega

theorem listEntries_text (pids : PidsOk s) (h : Head) :
    (listEntries s h).map entryText = s.shownList h := by
  refine map_filterMap_text fun r _ => ?_
  rw [listEntry_eq pids, Option.map_map]
  cases isRecord : s.procs r with
  | none => rfl
  | some p =>
      have isText : entryText (cString "%d ", numberArguments p.pid.toNat) =
          numberEntry p.pid.toNat := by
        rw [entryText, doprnt_numberEntry (pids.small isRecord)]
      simp only [Option.map_some, Function.comp_def, isText]

theorem listEntries_printable (pids : PidsOk s) {h : Head}
    (entry : Chars × Arguments) (member : entry ∈ listEntries s h) :
    Printable entry := by
  obtain ⟨r, -, isEntry⟩ := List.mem_filterMap.mp member
  rw [listEntry_eq pids] at isEntry
  obtain ⟨p, isRecord, rfl⟩ := Option.map_eq_some_iff.mp isEntry
  exact printable_number (pids.small isRecord)

end Tables

/-! ## The time -/

/-- Hours, minutes and seconds since the start; hours are counted modulo
256. -/
def clockAt (timeCount : Nat) : Clock where
  h := timeCount / 200 / 3600 % 256
  m := timeCount / 200 / 60 % 60
  s := timeCount / 200 % 60

/-- The clock is right at every tick, although it is set once in 200 ticks
only, and also when the ticks have been counted once around. -/
theorem clockAt_update (timeCount : Nat) (inside : timeCount < 2 ^ 32) :
    (clockAt timeCount).update ((timeCount + 1) % 0x100000000) =
      clockAt ((timeCount + 1) % 0x100000000) := by
  unfold Clock.update clockFrequency
  generalize isNow : (timeCount + 1) % 0x100000000 = now
  split
  · unfold clockAt
    rw [Clock.mk.injEq]
    omega
  · unfold clockAt
    have same : now / 200 = timeCount / 200 := by omega
    rw [same]

/-- Two decimal digits. -/
def twoDigits (n : Nat) : Chars :=
  [digitChar (n / 10), digitChar (n % 10)]

/-- The time as it is shown. -/
def clockText (clock : Clock) : Chars :=
  digitsOf (clock.h / 10) 10 ++ [digitChar (clock.h % 10)] ++ cString ":" ++
    twoDigits clock.m ++ cString ":" ++ twoDigits clock.s

/-- One digit. -/
theorem digitsOf_digit {n : Nat} (digit : n < 10) :
    digitsOf n 10 = [digitChar n] := by
  have last : n / 10 = 0 := by omega
  have same : n % 10 = n := by omega
  simp [digitsOf, maxBuf, numeral, last, same]

/-- The hours take two digits, or three from 100 on. -/
theorem digitsOf_hours {h : Nat} (inside : h < 256) :
    (digitsOf (h / 10) 10).length = if h < 100 then 1 else 2 := by
  have all : ∀ tens < 26, (digitsOf tens 10).length =
      if tens < 10 then 1 else 2 := by decide
  rw [all (h / 10) (by omega)]
  by_cases short : h < 100
  · rw [if_pos short, if_pos (by omega)]
  · rw [if_neg short, if_neg (by omega)]

theorem doprnt_clock {clock : Clock} (hours : clock.h < 256)
    (minutes : clock.m < 60) (seconds : clock.s < 60) :
    doprnt (cString "%d%d:%d%d:%d%d") clock.arguments 0 =
      ⟨clockText clock, none⟩ := by
  have colon : ascii ':' ≠ ascii '%' := by decide
  have number {next n : Nat} (isWord : clock.arguments.word next =
      BitVec.ofNat 32 n) (small : n < 256) (fmt : Chars) :
      doprntRest clock.arguments 0 (ascii '%' :: ascii 'd' :: fmt) next =
        .after (digitsOf n 10)
          (doprntRest clock.arguments 0 fmt (next + 1)) :=
    doprntRest_number isWord (small.trans (by decide)) fmt
  have last : doprntRest clock.arguments 0 (cString "%d") 5 =
      ⟨digitsOf (clock.s % 10) 10, none⟩ := by
    refine (number (n := clock.s % 10) rfl (by omega) []).trans ?_
    rw [doprntRest_nil]
    simp [Printed.after]
  calc doprnt (cString "%d%d:%d%d:%d%d") clock.arguments 0
      = .after (digitsOf (clock.h / 10) 10) (doprntRest clock.arguments 0
          (cString "%d:%d%d:%d%d") 1) :=
        number (n := clock.h / 10) rfl (by omega) _
    _ = .after (digitsOf (clock.h / 10) 10)
          (.after (digitsOf (clock.h % 10) 10)
          (doprntRest clock.arguments 0 (cString ":%d%d:%d%d") 2)) :=
        congrArg _ (number (n := clock.h % 10) rfl (by omega) _)
    _ = .after (digitsOf (clock.h / 10) 10)
          (.after (digitsOf (clock.h % 10) 10) (.after (cString ":")
          (doprntRest clock.arguments 0 (cString "%d%d:%d%d") 2))) :=
        congrArg _ (congrArg _ (doprntRest_char colon))
    _ = .after (digitsOf (clock.h / 10) 10)
          (.after (digitsOf (clock.h % 10) 10) (.after (cString ":")
          (.after (digitsOf (clock.m / 10) 10)
          (.after (digitsOf (clock.m % 10) 10)
          (doprntRest clock.arguments 0 (cString ":%d%d") 4))))) := by
        congr 3
        refine (number (n := clock.m / 10) rfl (by omega) _).trans ?_
        exact congrArg _ (number (n := clock.m % 10) rfl (by omega) _)
    _ = .after (digitsOf (clock.h / 10) 10)
          (.after (digitsOf (clock.h % 10) 10) (.after (cString ":")
          (.after (digitsOf (clock.m / 10) 10)
          (.after (digitsOf (clock.m % 10) 10) (.after (cString ":")
          (.after (digitsOf (clock.s / 10) 10)
          (doprntRest clock.arguments 0 (cString "%d") 5))))))) := by
        congr 5
        refine (doprntRest_char colon).trans ?_
        exact congrArg _ (number (n := clock.s / 10) rfl (by omega) _)
    _ = ⟨clockText clock, none⟩ := by
        rw [last, digitsOf_digit (n := clock.h % 10) (by omega),
          digitsOf_digit (n := clock.m / 10) (by omega),
          digitsOf_digit (n := clock.m % 10) (by omega),
          digitsOf_digit (n := clock.s / 10) (by omega),
          digitsOf_digit (n := clock.s % 10) (by omega)]
        simp [Printed.after, clockText, twoDigits]

/-- The text of the time fits in its buffer of 64 bytes and takes eight or nine
characters. -/
theorem clockText_length {clock : Clock} (hours : clock.h < 256) :
    (clockText clock).length = if clock.h < 100 then 8 else 9 := by
  have tens := digitsOf_hours hours
  have colon : (cString ":").length = 1 := rfl
  simp only [clockText, twoDigits, List.length_append, List.length_cons,
    List.length_nil, colon, tens]
  split <;> rfl

end Nebulea
