import KaduoxSsh.Lib.Result
import Mathlib.Algebra.BigOperators.Group.List.Basic
import Mathlib.Algebra.GroupWithZero.Nat
import Mathlib.Logic.Relation

/-!
# Walks with a stack

The top of a stack is taken and visited, and its successors are pushed one after the
other, so that the last of them is taken next. `walk` does this with a computation
that may fail, `visits` lists what is visited. A walk whose successors do not depend
on what was computed is a fold over `visits` (`walk_eq`), provided that the fuel lasts
until the stack is empty (`Exhausts`); a weight that covers the weights of the
successors tells how much is needed.

When successors are of a higher rank and have no common descendants, `visits` lists
each descendant of the stack once, and no node before one of its ancestors.
-/

namespace KaduoxSsh.Worklist

open Relation List

universe u

variable {α β : Type u} (next : α → List α)

/-- The nodes that a walk visits. -/
def visits : Nat → List α → List α
  | 0, _ => []
  | _ + 1, [] => []
  | fuel + 1, a :: rest => a :: visits fuel ((next a).reverse ++ rest)

/-- The stack is empty before the fuel is used up. -/
def Exhausts : Nat → List α → Prop
  | _, [] => True
  | 0, _ :: _ => False
  | fuel + 1, a :: rest => Exhausts fuel ((next a).reverse ++ rest)

/-- A walk, each visit of which changes an accumulator and pushes nodes. -/
def walk (visit : β → α → Result (β × List α)) : Nat → β → List α → Result β
  | _, acc, [] => .ok acc
  | 0, _, _ :: _ => Result.bail "the walk has not come to an end"
  | fuel + 1, acc, a :: rest => do
      let (acc, pushed) ← visit acc a
      walk visit fuel acc (pushed.reverse ++ rest)

/-- A node can be reached from another one. -/
def Descends (a b : α) : Prop := ReflTransGen (fun x y ↦ y ∈ next x) a b

variable {next} {a b c : α} {stack : List α} {fuel : Nat}

theorem Descends.refl (a : α) : Descends next a a := ReflTransGen.refl

theorem Descends.trans (hab : Descends next a b) (hbc : Descends next b c) : Descends next a c :=
  ReflTransGen.trans hab hbc

theorem Descends.head (hb : b ∈ next a) (hbc : Descends next b c) : Descends next a c :=
  ReflTransGen.head hb hbc

/-- A walk is a fold over the nodes that it visits. The nodes may stand for others. -/
theorem walk_eq {γ : Type u} (repr : α → γ) {visit : β → γ → Result (β × List γ)} {Valid : α → Prop}
    (hvisit : ∀ acc a acc' pushed, Valid a → visit acc (repr a) = .ok (acc', pushed) →
      pushed = (next a).map repr)
    (hnext : ∀ a, Valid a → ∀ b ∈ next a, Valid b) (hstack : ∀ a ∈ stack, Valid a)
    (hfuel : Exhausts next fuel stack) (acc : β) :
    walk visit fuel acc (stack.map repr) =
      (visits next fuel stack).foldlM (fun acc a ↦ (visit acc (repr a)).map Prod.fst) acc := by
  induction fuel generalizing stack acc with
  | zero =>
      cases stack with
      | nil => rfl
      | cons a rest => exact hfuel.elim
  | succ fuel ih =>
      cases stack with
      | nil => rfl
      | cons a rest =>
          have ha := hstack a mem_cons_self
          rw [map_cons, walk, visits, foldlM_cons]
          cases hstep : visit acc (repr a) with
          | error e => rfl
          | ok result =>
              obtain ⟨acc', pushed⟩ := result
              have hpushed := hvisit acc a acc' pushed ha hstep
              subst hpushed
              have hrest : ∀ b ∈ (next a).reverse ++ rest, Valid b := by
                intro b hb
                rcases mem_append.mp hb with hb | hb
                · exact hnext a ha b (mem_reverse.mp hb)
                · exact hstack b (mem_cons_of_mem a hb)
              have hwalk := ih hrest hfuel acc'
              rw [map_append, map_reverse] at hwalk
              exact hwalk

/-- A weight that covers the weights of the successors bounds the length of a walk. -/
theorem exhausts_of_weight (weight : α → Nat)
    (hweight : ∀ a, ((next a).map weight).sum < weight a)
    (hfuel : (stack.map weight).sum ≤ fuel) : Exhausts next fuel stack := by
  induction fuel generalizing stack with
  | zero =>
      cases stack with
      | nil => trivial
      | cons a rest =>
          have hpos := hweight a
          rw [map_cons, sum_cons] at hfuel
          omega
  | succ fuel ih =>
      cases stack with
      | nil => trivial
      | cons a rest =>
          refine ih ?_
          have hpos := hweight a
          rw [map_cons, sum_cons] at hfuel
          rw [map_append, sum_append, map_reverse, sum_reverse]
          omega

/-- What is visited is what can be reached from the stack. -/
theorem mem_visits (hfuel : Exhausts next fuel stack) :
    b ∈ visits next fuel stack ↔ ∃ a ∈ stack, Descends next a b := by
  induction fuel generalizing stack with
  | zero =>
      cases stack with
      | nil => simp [visits]
      | cons a rest => exact hfuel.elim
  | succ fuel ih =>
      cases stack with
      | nil => simp [visits]
      | cons a rest =>
          rw [visits, mem_cons, ih hfuel]
          constructor
          · rintro (rfl | ⟨c, hc, hcb⟩)
            · exact ⟨b, mem_cons_self, .refl b⟩
            · rcases mem_append.mp hc with hc | hc
              · exact ⟨a, mem_cons_self, .head (mem_reverse.mp hc) hcb⟩
              · exact ⟨c, mem_cons_of_mem a hc, hcb⟩
          · rintro ⟨c, hc, hcb⟩
            rcases mem_cons.mp hc with rfl | hc
            · rcases ReflTransGen.cases_head hcb with rfl | ⟨d, hd, hdb⟩
              · exact .inl rfl
              · exact .inr ⟨d, mem_append_left _ (mem_reverse.mpr hd), hdb⟩
            · exact .inr ⟨c, mem_append_right _ hc, hcb⟩

/-- What is visited can be reached from the stack, also when the fuel does not last. -/
theorem descends_of_mem_visits (hb : b ∈ visits next fuel stack) :
    ∃ a ∈ stack, Descends next a b := by
  induction fuel generalizing stack with
  | zero => cases hb
  | succ fuel ih =>
      cases stack with
      | nil => cases hb
      | cons a rest =>
          rcases mem_cons.mp hb with rfl | hb
          · exact ⟨b, mem_cons_self, .refl b⟩
          · obtain ⟨c, hc, hcb⟩ := ih hb
            rcases mem_append.mp hc with hc | hc
            · exact ⟨a, mem_cons_self, .head (mem_reverse.mp hc) hcb⟩
            · exact ⟨c, mem_cons_of_mem a hc, hcb⟩

section Ordered

variable {rank : α → Nat}

theorem Descends.rank_le (hrank : ∀ a, ∀ b ∈ next a, rank a < rank b) (h : Descends next a b) :
    rank a ≤ rank b := by
  induction h with
  | refl => exact Nat.le_refl _
  | tail _ hstep ih => exact Nat.le_trans ih (Nat.le_of_lt (hrank _ _ hstep))

/-- Two nodes without a common descendant. -/
def Apart (next : α → List α) (a b : α) : Prop :=
  ∀ c, Descends next a c → ¬Descends next b c

theorem Apart.symm (h : Apart next a b) : Apart next b a := fun c hb ha ↦ h c ha hb

/-- No node is visited before one of its ancestors, and none twice. -/
theorem visits_pairwise (hrank : ∀ a, ∀ b ∈ next a, rank a < rank b)
    (hnext : ∀ a, (next a).Pairwise (Apart next)) (hstack : stack.Pairwise (Apart next)) :
    (visits next fuel stack).Pairwise fun x y ↦ ¬Descends next y x := by
  induction fuel generalizing stack with
  | zero => exact .nil
  | succ fuel ih =>
      cases stack with
      | nil => exact .nil
      | cons a rest =>
          obtain ⟨ha, hrest⟩ := pairwise_cons.mp hstack
          refine pairwise_cons.mpr ⟨fun y hy hya ↦ ?_, ih (pairwise_append.mpr
            ⟨?_, hrest, fun b hb c hc d hbd hcd ↦ ?_⟩)⟩
          · obtain ⟨c, hc, hcy⟩ := descends_of_mem_visits hy
            rcases mem_append.mp hc with hc | hc
            · have hle := (hcy.trans hya).rank_le hrank
              exact Nat.not_lt.mpr hle (hrank a c (mem_reverse.mp hc))
            · exact ha c hc a (.refl a) (hcy.trans hya)
          · rw [pairwise_reverse]
            exact (hnext a).imp fun h ↦ h.symm
          · exact ha c hc d (.head (mem_reverse.mp hb) hbd) hcd

end Ordered

end KaduoxSsh.Worklist
