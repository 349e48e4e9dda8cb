import Nebulea.KernelMoves
import Nebulea.StampedPriorityList

/-!
# The intrusive lists of the kernel

A record is in a list exactly when its link says so, and every list is ordered
by priority and time of insertion.  Both are kept by each way in which kernel
code changes a record or moves it between lists.
-/

namespace Nebulea

open StampedPriority

/-- The lists and the links of the records agree, and the lists are ordered. -/
structure ListsOk (s : KState) : Prop where
  mem : ∀ r h, r ∈ s.lists h ↔ ∃ p, s.procs r = some p ∧ p.link = some h
  ordered : ∀ h, Ordered s.prio s.stampOf (s.lists h)
  stamped : ∀ r p, s.procs r = some p → p.link ≠ none → p.stamp < s.stamp

namespace KState

theorem prio_eq {s : KState} {r : ProcRef} {p : Process}
    (record : s.procs r = some p) : s.prio r = p.priority := by
  simp [prio, record]

theorem stampOf_eq {s : KState} {r : ProcRef} {p : Process}
    (record : s.procs r = some p) : s.stampOf r = p.stamp := by
  simp [stampOf, record]

theorem prio_congr {s t : KState} {r : ProcRef}
    (same : t.procs r = s.procs r) : t.prio r = s.prio r := by
  simp [prio, same]

theorem stampOf_congr {s t : KState} {r : ProcRef}
    (same : t.procs r = s.procs r) : t.stampOf r = s.stampOf r := by
  simp [stampOf, same]

theorem relink_prio (s : KState) (r : ProcRef) (p : Process)
    (source target : Option Head) :
    (s.relink r p source target).prio = (s.setProc r p).prio := by
  funext x
  by_cases same : x = r
  · subst same
    simp [prio]
  · simp [prio, same]

end KState

namespace ListsOk

variable {s : KState} (ok : ListsOk s)

include ok

theorem nodup (h : Head) : (s.lists h).Nodup :=
  (ok.ordered h).nodup

theorem mem_of_link {r : ProcRef} {p : Process} {h : Head}
    (record : s.procs r = some p) (link : p.link = some h) :
    r ∈ s.lists h :=
  (ok.mem r h).mpr ⟨p, record, link⟩

theorem link_of_mem {r : ProcRef} {p : Process} {h : Head}
    (record : s.procs r = some p) (member : r ∈ s.lists h) :
    p.link = some h := by
  obtain ⟨content, same, link⟩ := (ok.mem r h).mp member
  rw [record, Option.some.injEq] at same
  exact same ▸ link

/-- Taking a record out of the list its link names takes it out of all. -/
theorem mem_unchained {r x : ProcRef} {p : Process}
    (record : s.procs r = some p) (h : Head) :
    x ∈ s.relinkLists r p p.link none h ↔ x ≠ r ∧ x ∈ s.lists h := by
  have ofLink : r ∈ s.lists h → p.link = some h := ok.link_of_mem record
  cases link : p.link with
  | none =>
      simp only [KState.relinkLists]
      constructor
      · intro member
        refine ⟨?_, member⟩
        rintro rfl
        rw [link] at ofLink
        exact absurd (ofLink member) (by simp)
      · exact fun member => member.2
  | some g =>
      simp only [KState.relinkLists]
      by_cases same : h = g
      · subst same
        rw [Function.update_self, (ok.nodup h).mem_erase_iff]
      · rw [Function.update_of_ne same]
        constructor
        · intro member
          refine ⟨?_, member⟩
          rintro rfl
          have other := ofLink member
          rw [link, Option.some.injEq] at other
          exact same other.symm
        · exact fun member => member.2

/-- Membership after a record has moved from its list to another. -/
theorem mem_relinkLists {r x : ProcRef} {p n : Process}
    (record : s.procs r = some p) (target : Option Head) (h : Head) :
    x ∈ s.relinkLists r n p.link target h ↔
      x ≠ r ∧ x ∈ s.lists h ∨ x = r ∧ target = some h := by
  have unchained := ok.mem_unchained (x := x) record h
  have sameSource : s.relinkLists r n p.link none =
      s.relinkLists r p p.link none := rfl
  cases target with
  | none =>
      rw [sameSource]
      simpa using unchained
  | some g =>
      change x ∈ Function.update (s.relinkLists r p p.link none) g
        ((s.relinkLists r p p.link none g).orderedInsert _ r) h ↔ _
      by_cases same : h = g
      · subst same
        rw [Function.update_self, List.mem_orderedInsert, unchained]
        tauto
      · rw [Function.update_of_ne same, unchained]
        have other : some g ≠ some h := fun equal =>
          same (Option.some.inj equal).symm
        tauto

theorem setProc {r : ProcRef} {p n : Process}
    (record : s.procs r = some p) (sameLink : n.link = p.link)
    (samePriority : n.priority = p.priority)
    (sameStamp : n.stamp = p.stamp) : ListsOk (s.setProc r n) := by
  constructor
  · intro x h
    by_cases same : x = r
    · subst same
      simp [ok.mem, record, sameLink]
    · simp [ok.mem, same]
  · intro h
    refine (ok.ordered h).congr ?_ ?_
    · intro x _
      by_cases same : x = r
      · subst same
        simp [KState.prio, record, samePriority]
      · simp [KState.prio, same]
    · intro x _
      by_cases same : x = r
      · subst same
        simp [KState.stampOf, record, sameStamp]
      · simp [KState.stampOf, same]
  · intro x content found linked
    by_cases same : x = r
    · subst same
      simp only [KState.setProc_procs, Function.update_self,
        Option.some.injEq] at found
      subst found
      rw [KState.setProc_stamp, sameStamp]
      exact ok.stamped x p record (sameLink ▸ linked)
    · simp only [KState.setProc_procs, Function.update_of_ne same] at found
      exact ok.stamped x content found linked

theorem relink {r : ProcRef} {p n : Process}
    (record : s.procs r = some p) (target : Option Head) :
    ListsOk (s.relink r n p.link target) := by
  have member := fun x h =>
    ok.mem_relinkLists (x := x) (n := n) record target h
  constructor
  · intro x h
    rw [KState.relink_lists, member]
    by_cases same : x = r
    · subst same
      simp
    · simp [same, ok.mem]
  · intro h
    have unchained : Ordered (s.relink r n p.link target).prio
        (s.relink r n p.link target).stampOf
        (s.relinkLists r p p.link none h) := by
      have sub : (s.relinkLists r p p.link none h).Sublist (s.lists h) := by
        cases p.link with
        | none => exact List.Sublist.refl _
        | some g =>
            by_cases same : h = g
            · subst same
              simpa [KState.relinkLists] using List.erase_sublist
            · simp [KState.relinkLists, same]
      refine ((ok.ordered h).sublist sub).congr ?_ ?_
      · intro x inside
        have other := ((ok.mem_unchained record h).mp inside).1
        exact KState.prio_congr (by simp [other])
      · intro x inside
        have other := ((ok.mem_unchained record h).mp inside).1
        exact KState.stampOf_congr (by simp [other])
    cases target with
    | none => exact unchained
    | some g =>
        rw [KState.relink_lists]
        change Ordered _ _ (Function.update (s.relinkLists r p p.link none) g
          ((s.relinkLists r p p.link none g).orderedInsert _ r) h)
        by_cases same : h = g
        · subst same
          rw [Function.update_self, ← KState.relink_prio s r n p.link (some h)]
          refine unchained.orderedInsert r ?_
          intro x inside
          obtain ⟨other, listed⟩ := (ok.mem_unchained record h).mp inside
          obtain ⟨content, found, link⟩ := (ok.mem x h).mp listed
          rw [KState.stampOf_congr (s := s) (by simp [other]),
            KState.stampOf_eq found]
          simpa [KState.stampOf] using
            ok.stamped x content found (by simp [link])
        · rw [Function.update_of_ne same]
          exact unchained
  · intro x content found linked
    by_cases same : x = r
    · subst same
      simp only [KState.relink_procs, Function.update_self,
        Option.some.injEq] at found
      subst found
      have chained : target ≠ none := linked
      simp [chained]
    · simp only [KState.relink_procs, Function.update_of_ne same] at found
      have older := ok.stamped x content found linked
      rw [KState.relink_stamp]
      split
      · exact older
      · exact older.trans (Nat.lt_succ_self _)

/-- Records may change in all fields but the link and the keys. -/
theorem map {t : KState} {change : ProcRef → Process → Process}
    (procs : ∀ x, t.procs x = (s.procs x).map (change x))
    (sameLists : t.lists = s.lists) (sameStamp : t.stamp = s.stamp)
    (sameLink : ∀ x p, (change x p).link = p.link)
    (samePriority : ∀ x p, (change x p).priority = p.priority)
    (sameStampOf : ∀ x p, (change x p).stamp = p.stamp) : ListsOk t := by
  constructor
  · intro x h
    rw [sameLists, ok.mem, procs]
    cases s.procs x <;> simp [sameLink]
  · intro h
    rw [sameLists]
    refine (ok.ordered h).congr ?_ ?_
    · intro x _
      unfold KState.prio
      rw [procs]
      cases s.procs x <;> simp [samePriority]
    · intro x _
      unfold KState.stampOf
      rw [procs]
      cases s.procs x <;> simp [sameStampOf]
  · intro x content found linked
    rw [procs, Option.map_eq_some_iff] at found
    obtain ⟨p, record, rfl⟩ := found
    rw [sameStamp, sameStampOf]
    exact ok.stamped x p record (sameLink x p ▸ linked)

/-- A record at a free address is in no list. -/
theorem insertFresh {t : KState} {r : ProcRef} {p : Process}
    (free : s.procs r = none) (unlinked : p.link = none)
    (procs : t.procs = Function.update s.procs r (some p))
    (sameLists : t.lists = s.lists) (sameStamp : t.stamp = s.stamp) :
    ListsOk t := by
  have other {x : ProcRef} {h : Head} (member : x ∈ s.lists h) : x ≠ r := by
    rintro rfl
    obtain ⟨content, found, -⟩ := (ok.mem x h).mp member
    simp [free] at found
  constructor
  · intro x h
    rw [sameLists, procs]
    by_cases same : x = r
    · subst same
      simp [ok.mem, free, unlinked]
    · simp [ok.mem, same]
  · intro h
    rw [sameLists]
    refine (ok.ordered h).congr ?_ ?_
    · intro x member
      exact KState.prio_congr (by simp [procs, other member])
    · intro x member
      exact KState.stampOf_congr (by simp [procs, other member])
  · intro x content found linked
    rw [procs] at found
    rw [sameStamp]
    by_cases same : x = r
    · subst same
      simp only [Function.update_self, Option.some.injEq] at found
      exact absurd (found ▸ unlinked) linked
    · rw [Function.update_of_ne same] at found
      exact ok.stamped x content found linked

/-- Releasing finished records keeps the lists in order. -/
theorem purge {keep : Option ProcRef}
    (kept : ∀ r, keep = some r → r ∈ s.lists .finished) :
    ListsOk (s.purge keep) := by
  have untouched {x : ProcRef} {h : Head} (member : x ∈ s.lists h)
      (other : h ≠ .finished) : (s.purge keep).procs x = s.procs x := by
    have notFinished : x ∉ s.lists .finished := by
      intro inFinished
      obtain ⟨content, found, link⟩ := (ok.mem x h).mp member
      have finished := ok.link_of_mem found inFinished
      rw [link, Option.some.injEq] at finished
      exact other finished
    simp [notFinished]
  constructor
  · intro x h
    by_cases finished : h = .finished
    · subst finished
      rw [KState.purge_lists, Function.update_self, Option.mem_toList]
      constructor
      · intro isKept
        obtain ⟨content, found, link⟩ := (ok.mem x _).mp (kept x isKept)
        exact ⟨{ content with link := some .finished, stamp := s.stamp },
          by simp [kept x isKept, isKept, found], rfl⟩
      · rintro ⟨content, found, link⟩
        rw [KState.purge_procs] at found
        split at found
        · split at found
          · assumption
          · simp at found
        · rename_i notIn
          exact absurd (ok.mem_of_link found link) notIn
    · rw [KState.purge_lists, Function.update_of_ne finished]
      constructor
      · intro member
        rw [untouched member finished]
        exact (ok.mem x h).mp member
      · rintro ⟨content, found, link⟩
        rw [KState.purge_procs] at found
        split at found
        · split at found
          · obtain ⟨p, -, rfl⟩ := Option.map_eq_some_iff.mp found
            exact absurd (Option.some.inj link).symm finished
          · simp at found
        · exact ok.mem_of_link found link
  · intro h
    by_cases finished : h = .finished
    · subst finished
      rw [KState.purge_lists, Function.update_self]
      cases keep with
      | none => exact ordered_nil
      | some r => exact List.pairwise_singleton _ _
    · rw [KState.purge_lists, Function.update_of_ne finished]
      refine (ok.ordered h).congr ?_ ?_
      · intro x member
        exact KState.prio_congr (untouched member finished)
      · intro x member
        exact KState.stampOf_congr (untouched member finished)
  · intro x content found linked
    rw [KState.purge_procs] at found
    rw [KState.purge_stamp]
    split at found
    · split at found
      · rename_i isKept
        obtain ⟨p, -, rfl⟩ := Option.map_eq_some_iff.mp found
        simp [isKept]
      · simp at found
    · have older := ok.stamped x content found linked
      split
      · exact older
      · exact older.trans (Nat.lt_succ_self _)

/-- Only the records, the lists and the stamp counter matter. -/
theorem congr {t : KState} (sameProcs : t.procs = s.procs)
    (sameLists : t.lists = s.lists) (sameStamp : t.stamp = s.stamp) :
    ListsOk t := by
  have samePrio : t.prio = s.prio := by
    funext x
    exact KState.prio_congr (congrFun sameProcs x)
  have sameStampOf : t.stampOf = s.stampOf := by
    funext x
    exact KState.stampOf_congr (congrFun sameProcs x)
  constructor
  · rw [sameProcs, sameLists]
    exact ok.mem
  · rw [samePrio, sameStampOf, sameLists]
    exact ok.ordered
  · rw [sameProcs, sameStamp]
    exact ok.stamped

end ListsOk

end Nebulea
