import Mathlib.Algebra.BigOperators.Group.List.Basic
import Mathlib.Algebra.GroupWithZero.Nat
import Mathlib.Algebra.Order.BigOperators.Group.List
import Mathlib.Data.Finset.Card
import Mathlib.Data.Finset.Range

/-!
# Permits held by shared things

A bounded number of permits is handed out to things that have several owners: a
permit is taken before a thing is made, belongs to it while it has an owner, and goes
back with the last of them. `Balanced` says that no permit is lost and none is handed
out twice. It is kept when owners come and go while one remains, when a thing is made
under a permit taken before, and when an owner goes, if the permit goes back exactly
with the last one.
-/

namespace KaduoxSsh

structure Ledger where
  available : Nat
  /-- The permits taken for things that are not made yet. -/
  pending : Nat
  /-- The number of things made so far. -/
  size : Nat
  owners : Nat → Nat

namespace Ledger

/-- The things that have an owner. -/
def used (l : Ledger) : Finset Nat := (Finset.range l.size).filter (0 < l.owners ·)

structure Balanced (total : Nat) (l : Ledger) : Prop where
  total : l.available + l.used.card + l.pending = total
  bounded : ∀ id, l.size ≤ id → l.owners id = 0

variable {total : Nat} {l l' : Ledger}

theorem mem_used {id : Nat} : id ∈ l.used ↔ id < l.size ∧ 0 < l.owners id := by
  rw [used, Finset.mem_filter, Finset.mem_range]

theorem Balanced.lt_size (h : Balanced total l) {id : Nat} (hid : 0 < l.owners id) :
    id < l.size := by
  by_contra hge
  exact absurd (h.bounded id (Nat.le_of_not_lt hge)) (Nat.ne_of_gt hid)

/-- The same things have owners, and a permit may have been taken or given back. -/
theorem Balanced.of_owners (h : Balanced total l)
    (hpermits : l'.available + l'.pending = l.available + l.pending) (hsize : l'.size = l.size)
    (howners : ∀ id, 0 < l'.owners id ↔ 0 < l.owners id) : Balanced total l' := by
  have hused : l'.used = l.used := by
    ext id
    rw [mem_used, mem_used, hsize, howners]
  refine ⟨?_, fun id hid ↦ ?_⟩
  · rw [hused, ← h.total]
    omega
  · have hzero := h.bounded id (hsize ▸ hid)
    have hiff := howners id
    omega

/-- A thing is made under a permit, with one owner. -/
theorem Balanced.create (h : Balanced total l) (havailable : l'.available = l.available)
    (hpending : l'.pending + 1 = l.pending) (hsize : l'.size = l.size + 1)
    (howners : ∀ id, l'.owners id = l.owners id + if id = l.size then 1 else 0) :
    Balanced total l' := by
  have hnew : l.size ∉ l.used := fun hmem ↦ Nat.lt_irrefl _ (mem_used.mp hmem).1
  have hused : l'.used = insert l.size l.used := by
    ext id
    rw [Finset.mem_insert, mem_used, mem_used, hsize, howners]
    split <;> omega
  refine ⟨?_, fun id hid ↦ ?_⟩
  · rw [hused, Finset.card_insert_of_notMem hnew, ← h.total]
    omega
  · rw [howners, h.bounded id (by omega), if_neg (by omega)]

/-- An owner goes, and with the last one the permit goes back. -/
theorem Balanced.drop (h : Balanced total l) {id : Nat} (hid : l'.owners id + 1 = l.owners id)
    (hothers : ∀ other, other ≠ id → l'.owners other = l.owners other)
    (havailable : l'.available = l.available + if l'.owners id = 0 then 1 else 0)
    (hpending : l'.pending = l.pending) (hsize : l'.size = l.size) : Balanced total l' := by
  have hlt : id < l.size := h.lt_size (by omega)
  have hbounded : ∀ other, l'.size ≤ other → l'.owners other = 0 := by
    intro other hother
    rw [hothers other (by omega), h.bounded other (by omega)]
  by_cases hlast : l'.owners id = 0
  · have hmem : id ∈ l.used := mem_used.mpr ⟨hlt, by omega⟩
    have hused : l'.used = l.used.erase id := by
      ext other
      rw [Finset.mem_erase, mem_used, mem_used, hsize]
      by_cases hother : other = id
      · simp [hother, hlast]
      · rw [hothers other hother]
        tauto
    refine ⟨?_, hbounded⟩
    have hcard := Finset.card_erase_add_one hmem
    have htotal := h.total
    rw [if_pos hlast] at havailable
    rw [hused]
    omega
  · refine h.of_owners ?_ hsize fun other ↦ ?_
    · rw [havailable, if_neg hlast, hpending]
      rfl
    · by_cases hother : other = id
      · rw [hother]
        omega
      · rw [hothers other hother]

end Ledger

/-- A sum over a list of which one element is replaced. -/
theorem sum_map_set {α : Type*} {l : List α} {i : Nat} {a b : α} {f : α → Nat}
    (h : l[i]? = some a) : ((l.set i b).map f).sum + f a = (l.map f).sum + f b := by
  induction l generalizing i with
  | nil => cases h
  | cons c l ih =>
      cases i with
      | zero =>
          cases h
          simp only [List.set_cons_zero, List.map_cons, List.sum_cons]
          omega
      | succ i =>
          have hrest := ih h
          simp only [List.set_cons_succ, List.map_cons, List.sum_cons]
          omega

end KaduoxSsh
