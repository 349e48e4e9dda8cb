import Nebulea.InfoTexts

/-!
# The information display in a run

Between two ticks the rows of the display say what the last tick found, and
nothing that is written to the console changes them, unless it contains a form
feed, which clears the titles too.
-/

namespace Nebulea

open ExceptState

/-- The titles of the rows. -/
def titleOf : Nat → String
  | 1 => "Process table : "
  | 2 => "Queue table : "
  | 3 => "Activables queue : "
  | _ => "Finished queue : "

/-- The entries of the rows. -/
def KState.shownRow (s : KState) : Nat → List Chars
  | 1 => s.shownProcesses
  | 2 => s.shownQueues
  | 3 => s.shownList .activable
  | _ => s.shownList .finished

theorem titleOf_length (line : Nat) : (cString (titleOf line)).length ≤ 19 := by
  unfold titleOf
  split <;> decide

namespace Screen

/-- A row says its title and the entries that fit. -/
def RowShows (screen : Screen) (line : Nat) (entries : List Chars) : Prop :=
  ∀ col < 80, screen.cell line col =
    if col < (cString (titleOf line)).length then
      screen.glyph (constant (titleOf line) col)
    else screen.rowWord
      (fitting (80 - (cString (titleOf line)).length) entries).flatten
      (col - (cString (titleOf line)).length)

/-- The four rows below the time. -/
def RowsShow (screen : Screen) (entries : Nat → List Chars) : Prop :=
  ∀ line, 1 ≤ line → line ≤ 4 → screen.RowShows line (entries line)

/-- The first rows say what there was in the state `drawn`, or nothing besides
the titles. -/
structure Displays (screen : Screen) (drawn : Option KState) : Prop where
  time : ∀ col < 80, screen.cell 0 col =
    match drawn with
    | none => blank
    | some s =>
        if col < 71 then blank
        else screen.glyph ((clockText (clockAt s.timeCount)).getD (col - 71) 0)
  rows : screen.RowsShow (drawn.elim (fun _ => []) KState.shownRow)

section Rows

variable {first screen : Screen} {line : Nat} {entries : Nat → List Chars}

/-- The same cells in the same colours say the same. -/
theorem RowShows.congr {texts : List Chars} (shows : first.RowShows line texts)
    (same : ∀ col < 80, screen.cell line col = first.cell line col)
    (colors : ∀ c, screen.glyph c = first.glyph c) :
    screen.RowShows line texts := by
  intro col left
  rw [same col left, shows col left]
  simp only [rowWord, colors]

theorem Displays.congr {drawn : Option KState} (displays : first.Displays drawn)
    (same : ∀ row < 6, ∀ col < 80, screen.cell row col = first.cell row col)
    (colors : ∀ c, screen.glyph c = first.glyph c) : screen.Displays drawn where
  time col left := by
    rw [same 0 (by decide) col left, displays.time col left]
    simp only [colors]
  rows line low high :=
    (displays.rows line low high).congr (same line (by omega)) colors

/-- One row is drawn again, the others stay as they are. -/
theorem RowsShow.writeRow (shows : screen.RowsShow entries) (line : Nat)
    (stack : Nat → BitVec 8) (low : 1 ≤ line) (high : line ≤ 4)
    {drawn : List (Chars × Arguments)}
    (printable : ∀ entry ∈ drawn, Printable entry) :
    (screen.writeRow stack line (cString (titleOf line)).length drawn).RowsShow
      (Function.update entries line (drawn.map entryText)) := by
  have short := titleOf_length line
  have paints := paints_writeRow screen line (cString (titleOf line)).length
    stack (by omega) (by omega) printable
  have colors := paints.same.glyph
  intro other from₁ upTo
  by_cases isLine : other = line
  · subst isLine
    rw [Function.update_self]
    intro col left
    by_cases inTitle : col < (cString (titleOf other)).length
    · rw [paints.outside other col left (by omega),
        shows other low high col left]
      simp only [if_pos inTitle, colors]
    · rw [paints.inside col left (by omega), if_neg inTitle]
      simp only [rowWord, colors]
  · rw [Function.update_of_ne isLine]
    refine (shows other from₁ upTo).congr (fun col left => ?_) colors
    exact paints.outside other col left fun both => isLine both.1

end Rows

/-! ## A tick -/

/-- All that a tick draws below the time. -/
def drawRows (stack : Nat → BitVec 8) (s : KState) (screen : Screen) : Screen :=
  writeFinished stack s (writeActivable stack s
    (writeQueueTable stack s (writeProcessTable stack s screen)))

theorem drawRows_shows {screen : Screen} {s : KState}
    {entries : Nat → List Chars} (shows : screen.RowsShow entries)
    (stack : Nat → BitVec 8) (heap : HeapOk s) (pids : PidsOk s) :
    (drawRows stack s screen).RowsShow s.shownRow := by
  have processes := shows.writeRow 1 stack (by decide) (by decide)
    (processEntries_printable (s := s))
  have queues := processes.writeRow 2 stack (by decide) (by decide)
    (queueEntries_printable heap)
  have activable := queues.writeRow 3 stack (by decide) (by decide)
    (listEntries_printable pids (h := .activable))
  have finished := activable.writeRow 4 stack (by decide) (by decide)
    (listEntries_printable pids (h := .finished))
  rw [processEntries_text, queueEntries_text heap, listEntries_text pids,
    listEntries_text pids] at finished
  intro line low high
  have row := finished line low high
  obtain rfl | rfl | rfl | rfl : line = 1 ∨ line = 2 ∨ line = 3 ∨ line = 4 := by
    omega
  · exact row
  · exact row
  · exact row
  · exact row

/-- Drawing the rows changes nothing else. -/
theorem drawRows_same (screen : Screen) {s : KState} (stack : Nat → BitVec 8)
    (heap : HeapOk s) (pids : PidsOk s) :
    screen.SameVariables (drawRows stack s screen) ∧
      ∀ row, row = 0 ∨ 5 ≤ row → ∀ col < 80,
        (drawRows stack s screen).cell row col = screen.cell row col := by
  have processes := paints_writeRow screen 1 16 stack (by decide) (by decide)
    (processEntries_printable (s := s))
  have queues := paints_writeRow (writeProcessTable stack s screen) 2 14 stack
    (by decide) (by decide) (queueEntries_printable heap)
  have activable := paints_writeRow
    (writeQueueTable stack s (writeProcessTable stack s screen)) 3 19 stack
    (by decide) (by decide) (listEntries_printable pids (h := .activable))
  have finished := paints_writeRow
    (writeActivable stack s
      (writeQueueTable stack s (writeProcessTable stack s screen))) 4 17 stack
    (by decide) (by decide) (listEntries_printable pids (h := .finished))
  refine ⟨processes.same.trans (queues.same.trans
    (activable.same.trans finished.same)), ?_⟩
  intro row apart col left
  exact (finished.outside row col left (by omega)).trans
    ((activable.outside row col left (by omega)).trans
      ((queues.outside row col left (by omega)).trans
        (processes.outside row col left (by omega))))

/-- What a tick draws is what it has found, and it draws in the display
only. -/
theorem Displays.drawTick {screen : Screen} {s : KState} {old : Option KState}
    (displays : screen.Displays old) (stack : Nat → BitVec 8)
    (heap : HeapOk s) (pids : PidsOk s) :
    (drawTick stack s (clockAt s.timeCount) screen).Displays (some s) ∧
      screen.SameVariables (drawTick stack s (clockAt s.timeCount) screen) ∧
      ∀ row ≥ 5, ∀ col < 80,
        (Nebulea.drawTick stack s (clockAt s.timeCount) screen).cell row col =
          screen.cell row col := by
  have hours : (clockAt s.timeCount).h < 256 := Nat.mod_lt _ (by decide)
  have isText := doprnt_clock hours
    (show (clockAt s.timeCount).m < 60 from Nat.mod_lt _ (by decide))
    (show (clockAt s.timeCount).s < 60 from Nat.mod_lt _ (by decide))
  have size := clockText_length hours
  obtain ⟨string, result, zero, saved⟩ :=
    vsprintf_text stack 0 (cString "%d%d:%d%d:%d%d")
      (clockAt s.timeCount).arguments (by rw [isText])
      (by rw [isText]; simp only [size]; split <;> omega)
  rw [isText] at result zero saved
  simp only [Nat.zero_add] at zero saved
  -- nine characters are copied, the last one being the zero before 100 hours
  have copied (i : Nat) (before : i < 9) :
      string i = (clockText (clockAt s.timeCount)).getD i 0 := by
    by_cases inText : i < (clockText (clockAt s.timeCount)).length
    · exact saved i inText
    · have isEnd : i = (clockText (clockAt s.timeCount)).length := by
        split at size <;> omega
      rw [isEnd, zero, List.getD_eq_default _ _ (Nat.le_refl _)]
  have time := paints_writeTime screen string
  have rows : (screen.writeTime string 10).RowsShow
      (old.elim (fun _ => []) KState.shownRow) := by
    intro line low high
    refine (displays.rows line low high).congr (fun col left => ?_)
      time.same.glyph
    exact time.outside line col left fun both => by omega
  have isDrawn : Nebulea.drawTick stack s (clockAt s.timeCount) screen =
      drawRows stack s (screen.writeTime string 10) := by
    simp only [Nebulea.drawTick, result]
    rfl
  obtain ⟨same, elsewhere⟩ :=
    drawRows_same (screen.writeTime string 10) stack heap pids
  rw [isDrawn]
  refine ⟨⟨?_, drawRows_shows rows stack heap pids⟩, time.same.trans same, ?_⟩
  · intro col left
    rw [elsewhere 0 (.inl rfl) col left]
    simp only
    by_cases inTime : 71 ≤ col
    · rw [time.inside col left inTime, if_neg (by omega), copied _ (by omega)]
      exact ((time.same.trans same).glyph _).symm
    · rw [time.outside 0 col left fun both => inTime both.2,
        displays.time col left, if_pos (show col < 71 by omega)]
      cases old with
      | none => rfl
      | some before => exact if_pos (by omega)
  · intro row below col left
    rw [elsewhere row (.inr below) col left]
    exact time.outside row col left fun both => by omega

/-! ## The start -/

/-- The screen when `kernel_start` has cleared it and written the titles. -/
def boot (bytes : ByteMemory.Bytes) : Screen :=
  ((clearScreen ⟨bytes, 6, 0, 0, 15, []⟩).setCursor 6 0).writeInfoTitles

end Screen

/-! ## Runs -/

/-- The kernel, the screen and the clock, and the state that was drawn last. -/
structure Desktop where
  kernel : KState
  screen : Screen
  clock : Clock
  drawn : Option KState

/-- The kernel's variables when `tic_PIT` draws. -/
def KState.counted (s : KState) : KState :=
  { s with timeCount := (s.timeCount + 1) % 0x100000000 }

/-- What `tic_PIT` leaves when it returns or has switched processes. -/
def Desktop.tick (d : Desktop) (stack : Nat → BitVec 8) (t : KState) :
    Desktop :=
  let s := d.kernel.counted
  let clock := d.clock.update s.timeCount
  ⟨t, drawTick stack s clock d.screen, clock, some s⟩

/-- The desktop when the kernel has started. -/
def Desktop.boot (apps : List String) (bytes : ByteMemory.Bytes) : Desktop :=
  ⟨bootState apps, .boot bytes, ⟨0, 0, 0⟩, none⟩

section Time

variable {s t : KState}

/-- Moves other than a tick keep the time. -/
theorem moves_timeCount
    (path : Moves (fun m _ => m ≠ .tick) s t) :
    t.timeCount = s.timeCount := by
  refine path.keeps (I := fun u => u.timeCount = s.timeCount) ?_ rfl
  intro m u permitted _ same
  exact ((m.timeCount_effect u).resolve_left permitted).trans same

/-- The rest of `tic_PIT`. -/
theorem wp_ticPIT_rest (sound : Sound s) {p : Process} (onCpu : s.OnCpu p)
    (user : s.mode = .user) :
    wp ticPIT (fun _ t => Ends (fun m _ => m ≠ .tick) False s.counted t)
      (Stops (fun m _ => m ≠ .tick) s.counted) s := by
  have plain : Allows (fun m _ => m ≠ .tick) s.counted := by
    rintro m u isPlain - rfl
    exact isPlain
  have ticked : Moves (fun _ _ => True) s s.counted :=
    .single .tick trivial trivial
  have soundT := sound.moves ticked
  have onCpuT : s.counted.OnCpu p := onCpu
  have has := soundT.hasPid_current onCpuT
  have unlinked := soundT.coherent.link_of_elected onCpuT.1 onCpuT.2
  rw [ticPIT, wp_bind, wp_modify, wp_bind, wp_get, wp_ite]
  split
  · change wp (entry s.counted.currentPid >>= _) _ _ s.counted
    rw [wp_bind, wp_entry has.1, wp_bind, wp_derefProc has.2]
    simp only [if_pos onCpuT.2]
    rw [wp_bind, wp_activate has.2 unlinked]
    refine wp_leave soundT plain
      (.single (.yield p) (by simp) onCpuT) rfl ⟨?_, ?_⟩ (by simp)
    · intro c inKernel
      have mode : s.mode = .kernel c := inKernel
      simp [user] at mode
    · exact ⟨_, Function.update_self .., by simp, rfl⟩
  · exact (Underway.refl onCpuT).ret plain user s.eax

/-- A tick counts one. -/
theorem Settled.tick_timeCount (settled : Settled s)
    (next : step .tick s = .next t) : t.timeCount = s.counted.timeCount := by
  obtain ⟨p, onCpu⟩ := settled.onCpu
  unfold step at next
  cases isMode : s.mode with
  | user =>
      have rule := wp_ticPIT_rest settled.sound onCpu isMode
      simp only [isMode, kernelEntry] at next
      cases outcome : ticPIT s with
      | ok value u =>
          rw [outcome] at next
          cases next
          exact moves_timeCount (wp_ok rule outcome).path
      | error failure u =>
          have stops := wp_error rule outcome
          rw [outcome] at next
          cases failure with
          | page =>
              cases next
              exact moves_timeCount stops.1
          | panic | assertion | useAfterFree | lostContext | noActivable
          | nullHead | endlessLoop => cases next
  | kernel k =>
      simp only [isMode, kernelEntry] at next
      cases next
  | pageFault =>
      simp only [isMode, kernelEntry] at next
      cases next

/-- Other actions keep the time. -/
theorem Settled.same_timeCount (settled : Settled s) {a : Action}
    (other : a ≠ .tick) (next : step a s = .next t) :
    t.timeCount = s.timeCount := by
  refine settled.keeps next (I := fun u => u.timeCount = s.timeCount) ?_ rfl
  intro u m _ permitted _ same
  refine ((m.timeCount_effect u).resolve_left ?_).trans same
  rintro rfl
  exact other permitted.2

end Time

/-- What holds of the desktop in a run. -/
structure Desktop.InOrder (apps : List String) (d : Desktop) : Prop where
  run : Run (fun _ _ => True) (bootState apps) d.kernel
  inside : d.kernel.timeCount < 2 ^ 32
  clock : d.clock = clockAt d.kernel.timeCount
  displays : d.screen.Displays d.drawn
  high : 6 ≤ d.screen.currentLig
  low : d.screen.currentLig ≤ 24
  left : d.screen.currentCol ≤ 79
  found : ∀ u, d.drawn = some u → u.timeCount = d.kernel.timeCount ∧
    ∃ v, Run (fun _ _ => True) (bootState apps) v ∧ u = v.counted

theorem Desktop.InOrder.tick {apps : List String} {d : Desktop}
    (ok : d.InOrder apps) (stack : Nat → BitVec 8) {t : KState}
    (next : step .tick d.kernel = .next t) : (d.tick stack t).InOrder apps := by
  have settled := ok.run.settled bootState_settled
  have time := settled.tick_timeCount next
  have clock : d.clock.update d.kernel.counted.timeCount =
      clockAt d.kernel.counted.timeCount := by
    rw [ok.clock]
    exact clockAt_update d.kernel.timeCount ok.inside
  -- the tables are those from before the tick
  have heap : HeapOk d.kernel.counted := by
    have before := settled.sound.coherent.heap
    exact ⟨before.queueTable, before.semTable, before.shorts, before.fresh⟩
  have pids : PidsOk d.kernel.counted := ok.run.pidsOk
  obtain ⟨displays, same, -⟩ := ok.displays.drawTick stack heap pids
  unfold Desktop.tick
  simp only [clock]
  refine ⟨ok.run.step trivial next, ?_, ?_, displays, ?_, ?_, ?_, ?_⟩
  · simp only [time]
    exact Nat.mod_lt _ (by decide)
  · simp only [time]
  · rw [same.lig]
    exact ok.high
  · rw [same.lig]
    exact ok.low
  · rw [same.col]
    exact ok.left
  · rintro u isDrawn
    cases isDrawn
    exact ⟨time.symm, d.kernel, ok.run, rfl⟩

theorem Desktop.InOrder.kernel {apps : List String} {d : Desktop}
    (ok : d.InOrder apps) {a : Action} {t : KState} (other : a ≠ .tick)
    (next : step a d.kernel = .next t) :
    Desktop.InOrder apps { d with kernel := t } := by
  have settled := ok.run.settled bootState_settled
  have time := settled.same_timeCount other next
  refine ⟨ok.run.step trivial next, ?_, ?_, ok.displays, ok.high, ok.low,
    ok.left, ?_⟩
  · simp only [time]
    exact ok.inside
  · simp only [time]
    exact ok.clock
  · intro u isDrawn
    obtain ⟨sameTime, isTick⟩ := ok.found u isDrawn
    exact ⟨sameTime.trans time.symm, isTick⟩

end Nebulea
