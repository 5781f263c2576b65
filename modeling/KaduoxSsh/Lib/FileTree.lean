import KaduoxSsh.Lib.SortedMap

/-!
# File trees and the order of structural changes

A tree is a finite map from paths to nodes; which path is the parent of which is
a parameter, `none` standing for the root itself, which is always a directory.
The four changes have the preconditions of a real file system: `mkdir` needs a
parent directory and a free name, `rmdir` an empty directory, `unlink` a
non-directory, and `put` a parent directory and no directory at the name.

The second half is about *batches*.  A batch of one kind of change succeeds, and
has the obvious effect, when its paths are listed in the right order:
`rmdirAll` when deeper paths come first and every child present is in the batch,
`mkdirAll` when shallower paths come first and every parent is present or in the
batch.  Depth is any measure that decreases towards the root.
-/

namespace KaduoxSsh

open List SortedMap

universe u v

/-- What a tree holds at a path. -/
inductive Node (F : Type v) where
  | dir
  | file (data : F)
deriving DecidableEq, Repr

/-- Why a change was refused. -/
inductive TreeError where
  | noParent
  | occupied
  | notADirectory
  | notEmpty
  | notAFile
  | isADirectory
deriving DecidableEq, Repr

abbrev FileTree (P : Type u) (F : Type v) [LinearOrder P] := SortedMap P (Node F)

namespace FileTree

variable {P : Type u} {F : Type v} [LinearOrder P] (parent : P → Option P)

/-- The directory that holds a name is there: the root, or a directory of the tree. -/
def hasParent (t : FileTree P F) (p : P) : Bool :=
  match parent p with
  | none => true
  | some q => match t.get? q with
    | some .dir => true
    | _ => false

/-- Nothing of the tree lies directly below a path. -/
def isEmptyDir (t : FileTree P F) (p : P) : Bool :=
  t.entries.all fun e ↦ decide (parent e.1 ≠ some p)

def mkdir (t : FileTree P F) (p : P) : Except TreeError (FileTree P F) :=
  if !hasParent parent t p then .error .noParent
  else if t.contains p then .error .occupied
  else .ok (t.insert p .dir)

def rmdir (t : FileTree P F) (p : P) : Except TreeError (FileTree P F) :=
  match t.get? p with
  | some .dir => if isEmptyDir parent t p then .ok (t.erase p) else .error .notEmpty
  | _ => .error .notADirectory

def unlink (t : FileTree P F) (p : P) : Except TreeError (FileTree P F) :=
  match t.get? p with
  | some (.file _) => .ok (t.erase p)
  | _ => .error .notAFile

def put (t : FileTree P F) (p : P) (data : F) : Except TreeError (FileTree P F) :=
  if !hasParent parent t p then .error .noParent
  else match t.get? p with
    | some .dir => .error .isADirectory
    | _ => .ok (t.insert p (.file data))

variable {parent} {t : FileTree P F} {p : P} {l : List P} {A : Type*}

/-! ## When a change succeeds -/

theorem hasParent_iff :
    hasParent parent t p = true ↔ ∀ q, parent p = some q → t.get? q = some .dir := by
  unfold hasParent
  cases hp : parent p with
  | none => simp
  | some q =>
      cases ht : t.get? q with
      | none => simp [ht]
      | some n => cases n <;> simp [ht]

theorem isEmptyDir_iff :
    isEmptyDir parent t p = true ↔ ∀ q, parent q = some p → t.get? q = none := by
  simp only [isEmptyDir, all_eq_true, decide_eq_true_eq, Prod.forall]
  constructor
  · exact fun h q hq ↦ get?_eq_none_iff.mpr fun n hn ↦ h q n hn hq
  · exact fun h q n hn hq ↦ get?_eq_none_iff.mp (h q hq) n hn

theorem mkdir_of (hpar : ∀ q, parent p = some q → t.get? q = some .dir) (hfree : t.get? p = none) :
    mkdir parent t p = .ok (t.insert p .dir) := by
  rw [mkdir, hasParent_iff.mpr hpar, contains_eq_false_iff.mpr hfree]
  rfl

theorem rmdir_of (hdir : t.get? p = some .dir) (hempty : ∀ q, parent q = some p → t.get? q = none) :
    rmdir parent t p = .ok (t.erase p) := by
  rw [rmdir, hdir]
  exact if_pos (isEmptyDir_iff.mpr hempty)

theorem unlink_of {data : F} (h : t.get? p = some (.file data)) : unlink t p = .ok (t.erase p) := by
  rw [unlink, h]

theorem put_of {data : F} (hpar : ∀ q, parent p = some q → t.get? q = some .dir)
    (hdir : t.get? p ≠ some .dir) : put parent t p data = .ok (t.insert p (.file data)) := by
  rw [put, hasParent_iff.mpr hpar]
  cases ht : t.get? p with
  | none => rfl
  | some n => cases n with
    | dir => exact absurd ht hdir
    | file d => rfl

theorem mkdir_ok {t t' : FileTree P F} (h : mkdir parent t p = .ok t') : t' = t.insert p .dir := by
  unfold mkdir at h
  split at h
  · cases h
  · split at h
    · cases h
    · cases h; rfl

theorem put_ok {t t' : FileTree P F} {data : F} (h : put parent t p data = .ok t') :
    t' = t.insert p (.file data) := by
  unfold put at h
  split at h
  · cases h
  · split at h
    · cases h
    · cases h; rfl

theorem unlink_ok {t t' : FileTree P F} (h : unlink t p = .ok t') : t' = t.erase p := by
  unfold unlink at h
  split at h
  · cases h; rfl
  · cases h

theorem rmdir_ok {t t' : FileTree P F} (h : rmdir parent t p = .ok t') : t' = t.erase p := by
  unfold rmdir at h
  split at h
  · split at h
    · cases h; rfl
    · cases h
  · cases h

/-! ## Batches -/

/-- Apply one change after another, stopping at the first that is refused. -/
def foldChanges {A : Type*} (step : FileTree P F → A → Except TreeError (FileTree P F)) :
    List A → FileTree P F → Except TreeError (FileTree P F)
  | [], t => .ok t
  | a :: rest, t => match step t a with
    | .ok t' => foldChanges step rest t'
    | .error e => .error e

theorem foldChanges_append {step : FileTree P F → A → Except TreeError (FileTree P F)}
    {l l' : List A} {t t' : FileTree P F} (h : foldChanges step l t = .ok t') :
    foldChanges step (l ++ l') t = foldChanges step l' t' := by
  induction l generalizing t with
  | nil => cases h; rfl
  | cons a rest ih =>
      rw [foldChanges] at h
      rw [cons_append, foldChanges]
      cases hs : step t a with
      | error e => rw [hs] at h; cases h
      | ok t₁ => rw [hs] at h; exact ih h

/-- A batch in two parts runs through when both do, one after the other. -/
theorem foldChanges_append_ok {step : FileTree P F → A → Except TreeError (FileTree P F)}
    {l l' : List A} {t t' : FileTree P F} (h : foldChanges step (l ++ l') t = .ok t') :
    ∃ t₁, foldChanges step l t = .ok t₁ ∧ foldChanges step l' t₁ = .ok t' := by
  induction l generalizing t with
  | nil => exact ⟨t, rfl, h⟩
  | cons a rest ih =>
      rw [cons_append, foldChanges] at h
      rw [foldChanges]
      cases hs : step t a with
      | error e => rw [hs] at h; cases h
      | ok t₁ => rw [hs] at h; exact ih h

/-- A batch that runs through, each change of which gives its path the same node. -/
theorem foldChanges_effect {step : FileTree P F → A → Except TreeError (FileTree P F)} (f : A → P)
    (node : Option (Node F)) {l : List A}
    (hstep : ∀ a ∈ l, ∀ t t', step t a = .ok t' → ∀ p, t'.get? p = if p = f a then node else t.get? p)
    {t t' : FileTree P F} (h : foldChanges step l t = .ok t') (p : P) :
    t'.get? p = if p ∈ l.map f then node else t.get? p := by
  induction l generalizing t with
  | nil => cases h; simp
  | cons a rest ih =>
      rw [foldChanges] at h
      cases hs : step t a with
      | error e => rw [hs] at h; cases h
      | ok t₁ =>
          rw [hs] at h
          rw [ih (fun b hb ↦ hstep b (mem_cons_of_mem a hb)) h,
            hstep a mem_cons_self t t₁ hs p, map_cons]
          by_cases hpa : p = f a
          · simp [hpa]
          · simp [hpa]

/-- A batch given through the paths of its elements. -/
theorem foldChanges_map {A B : Type*} {step : FileTree P F → A → Except TreeError (FileTree P F)}
    (step' : FileTree P F → B → Except TreeError (FileTree P F)) (f : A → B) {l : List A}
    (h : ∀ a ∈ l, ∀ t, step t a = step' t (f a)) (t : FileTree P F) :
    foldChanges step l t = foldChanges step' (l.map f) t := by
  induction l generalizing t with
  | nil => rfl
  | cons a rest ih =>
      rw [map_cons, foldChanges, foldChanges, h a mem_cons_self]
      cases step' t (f a) with
      | error e => rfl
      | ok t' => exact ih (fun x hx ↦ h x (mem_cons_of_mem a hx)) t'

/-- Unlinking distinct files removes exactly those files. -/
theorem foldChanges_unlink (hnd : l.Nodup) (hfile : ∀ p ∈ l, ∃ data, t.get? p = some (.file data)) :
    ∃ t', foldChanges unlink l t = .ok t' ∧
      ∀ p, t'.get? p = if p ∈ l then none else t.get? p := by
  induction l generalizing t with
  | nil => exact ⟨t, rfl, fun p ↦ by simp⟩
  | cons a rest ih =>
      obtain ⟨ha, hrest⟩ := nodup_cons.mp hnd
      obtain ⟨data, hdata⟩ := hfile a mem_cons_self
      obtain ⟨t', hrun, ht'⟩ := ih (t := t.erase a) hrest fun p hp ↦ by
        rw [get?_erase, if_neg (ne_of_mem_of_not_mem hp ha)]
        exact hfile p (mem_cons_of_mem a hp)
      refine ⟨t', by rw [foldChanges, unlink_of hdata]; exact hrun, fun p ↦ ?_⟩
      rw [ht', get?_erase]
      by_cases hpa : p = a <;> by_cases hp : p ∈ rest <;> simp [hpa, hp]

variable (parent)

/-- Removing distinct directories, deeper ones first, succeeds when everything
below one of them is removed with it. -/
theorem foldChanges_rmdir (depth : P → Nat) (hnd : l.Nodup)
    (hsort : l.Pairwise fun p q ↦ depth q ≤ depth p) (hdir : ∀ p ∈ l, t.get? p = some .dir)
    (hdeep : ∀ p ∈ l, ∀ q, parent q = some p → t.get? q ≠ none → depth p < depth q)
    (hclosed : ∀ p ∈ l, ∀ q, parent q = some p → t.get? q ≠ none → q ∈ l) :
    ∃ t', foldChanges (rmdir parent) l t = .ok t' ∧
      ∀ p, t'.get? p = if p ∈ l then none else t.get? p := by
  induction l generalizing t with
  | nil => exact ⟨t, rfl, fun p ↦ by simp⟩
  | cons a rest ih =>
      obtain ⟨ha, hrest⟩ := nodup_cons.mp hnd
      obtain ⟨hhead, htail⟩ := pairwise_cons.mp hsort
      -- A child of the head is in the batch and deeper, yet nothing later is deeper.
      have hempty : ∀ q, parent q = some a → t.get? q = none := by
        intro q hq
        by_contra hne
        have hlt := hdeep a mem_cons_self q hq hne
        rcases mem_cons.mp (hclosed a mem_cons_self q hq hne) with rfl | hmem
        · exact lt_irrefl _ hlt
        · exact absurd hlt (not_lt.mpr (hhead q hmem))
      have hkeep : ∀ q, (t.erase a).get? q ≠ none → q ≠ a ∧ t.get? q ≠ none := by
        intro q hq
        rw [get?_erase] at hq
        by_cases hqa : q = a
        · exact absurd (if_pos hqa) hq
        · exact ⟨hqa, by rwa [if_neg hqa] at hq⟩
      obtain ⟨t', hrun, ht'⟩ := ih (t := t.erase a) hrest htail
        (fun p hp ↦ by
          rw [get?_erase, if_neg (ne_of_mem_of_not_mem hp ha)]
          exact hdir p (mem_cons_of_mem a hp))
        (fun p hp q hq hne ↦ hdeep p (mem_cons_of_mem a hp) q hq (hkeep q hne).2)
        (fun p hp q hq hne ↦ by
          have hmem := hclosed p (mem_cons_of_mem a hp) q hq (hkeep q hne).2
          exact (mem_cons.mp hmem).resolve_left (hkeep q hne).1)
      refine ⟨t', ?_, fun p ↦ ?_⟩
      · rw [foldChanges, rmdir_of (hdir a mem_cons_self) hempty]
        exact hrun
      · rw [ht', get?_erase]
        by_cases hpa : p = a <;> by_cases hp : p ∈ rest <;> simp [hpa, hp]

/-- Creating distinct directories, shallower ones first, succeeds when every
parent is a directory already or is created with them. -/
theorem foldChanges_mkdir (depth : P → Nat) (hnd : l.Nodup)
    (hsort : l.Pairwise fun p q ↦ depth p ≤ depth q) (hfree : ∀ p ∈ l, t.get? p = none)
    (hshallow : ∀ p ∈ l, ∀ q, parent p = some q → depth q < depth p)
    (hpar : ∀ p ∈ l, ∀ q, parent p = some q → t.get? q = some .dir ∨ q ∈ l) :
    ∃ t', foldChanges (mkdir parent) l t = .ok t' ∧
      ∀ p, t'.get? p = if p ∈ l then some .dir else t.get? p := by
  induction l generalizing t with
  | nil => exact ⟨t, rfl, fun p ↦ by simp⟩
  | cons a rest ih =>
      obtain ⟨ha, hrest⟩ := nodup_cons.mp hnd
      obtain ⟨hhead, htail⟩ := pairwise_cons.mp hsort
      -- The parent of the head is shallower, so it cannot come later in the batch.
      have hpar_head : ∀ q, parent a = some q → t.get? q = some .dir := by
        intro q hq
        have hlt := hshallow a mem_cons_self q hq
        rcases hpar a mem_cons_self q hq with h | h
        · exact h
        · rcases mem_cons.mp h with rfl | hmem
          · exact absurd hlt (lt_irrefl _)
          · exact absurd hlt (not_lt.mpr (hhead q hmem))
      obtain ⟨t', hrun, ht'⟩ := ih (t := t.insert a .dir) hrest htail
        (fun p hp ↦ by
          rw [get?_insert, if_neg (ne_of_mem_of_not_mem hp ha)]
          exact hfree p (mem_cons_of_mem a hp))
        (fun p hp ↦ hshallow p (mem_cons_of_mem a hp))
        (fun p hp q hq ↦ by
          rw [get?_insert]
          by_cases hqa : q = a
          · exact Or.inl (if_pos hqa)
          · rw [if_neg hqa]
            rcases hpar p (mem_cons_of_mem a hp) q hq with h | h
            · exact Or.inl h
            · exact Or.inr ((mem_cons.mp h).resolve_left hqa))
      refine ⟨t', ?_, fun p ↦ ?_⟩
      · rw [foldChanges, mkdir_of hpar_head (hfree a mem_cons_self)]
        exact hrun
      · rw [ht', get?_insert]
        by_cases hpa : p = a <;> by_cases hp : p ∈ rest <;> simp [hpa, hp]

/-- Writing distinct files below directories that are there puts exactly those files. -/
theorem foldChanges_put {l : List (P × F)} (hnd : (l.map Prod.fst).Nodup)
    (hpar : ∀ e ∈ l, ∀ q, parent e.1 = some q → t.get? q = some .dir)
    (hdir : ∀ e ∈ l, t.get? e.1 ≠ some .dir) :
    ∃ t', foldChanges (fun t e ↦ put parent t e.1 e.2) l t = .ok t' ∧
      (∀ e ∈ l, t'.get? e.1 = some (.file e.2)) ∧
      ∀ p, p ∉ l.map Prod.fst → t'.get? p = t.get? p := by
  induction l generalizing t with
  | nil => exact ⟨t, rfl, by simp, fun p _ ↦ rfl⟩
  | cons a rest ih =>
      obtain ⟨ha, hrest⟩ := nodup_cons.mp hnd
      have hne : ∀ e ∈ rest, e.1 ≠ a.1 := fun e he hea ↦
        ha (hea ▸ mem_map_of_mem (f := Prod.fst) he)
      -- A directory of the tree stays one: the written name held none.
      have hkeep : ∀ q, t.get? q = some .dir → (t.insert a.1 (.file a.2)).get? q = some .dir := by
        intro q hq
        have hqa : q ≠ a.1 := fun h ↦ hdir a mem_cons_self (h ▸ hq)
        rw [get?_insert, if_neg hqa]
        exact hq
      obtain ⟨t', hrun, hput, hsame⟩ := ih (t := t.insert a.1 (.file a.2)) hrest
        (fun e he q hq ↦ hkeep q (hpar e (mem_cons_of_mem a he) q hq))
        (fun e he ↦ by
          rw [get?_insert, if_neg (hne e he)]
          exact hdir e (mem_cons_of_mem a he))
      refine ⟨t', ?_, ?_, fun p hp ↦ ?_⟩
      · rw [foldChanges, put_of (hpar a mem_cons_self) (hdir a mem_cons_self)]
        exact hrun
      · intro e he
        rcases mem_cons.mp he with rfl | he
        · rw [hsame e.1 ha, get?_insert_self]
        · exact hput e he
      · obtain ⟨hpa, hp⟩ := not_or.mp (mt mem_cons.mpr hp)
        rw [hsame p hp, get?_insert_of_ne _ _ hpa]

end FileTree

end KaduoxSsh
