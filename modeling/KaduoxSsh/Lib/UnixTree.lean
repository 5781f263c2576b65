import Mathlib.Data.List.Infix

/-!
# What the tools of Unix do to a tree of files

A tree says what is found at a place, a place being the names that lead to it from
the root. The root is always a directory. Each tool is a function from the tree it
starts with to the one it leaves, and `none` when it fails.

The tools run with the rights of the superuser, and nothing but the tree makes them
fail: names may be of any length and there is always room. Places are physical: no
symbolic link is followed on the way.
-/

namespace KaduoxSsh.UnixTree

universe u

/-- What is found at a place. -/
inductive Obj (F : Type u) where
  | directory (mode : Nat)
  | file (data : F) (mode : Nat)
  | link (target : String)
deriving DecidableEq, Repr

/-- The names from the root on. -/
abbrev Place := List String

abbrev Tree (F : Type u) := Place → Option (Obj F)

variable {F : Type u} {t t' : Tree F} {p q rest source target : Place}

def isDirectory (t : Tree F) (p : Place) : Bool :=
  p = [] || match t p with
    | some (.directory _) => true
    | _ => false

/-- Something that is no directory stands on the way to a place, or at it. -/
def isBlocked (t : Tree F) (p : Place) : Bool :=
  p.inits.any fun q ↦ (t q).isSome && !isDirectory t q

/-! ## Tools -/

/-- `rm -rf`: the root is refused, and what is not there is ignored. -/
def removeAll (p : Place) (t : Tree F) : Option (Tree F) :=
  if p = [] then none else some fun q ↦ if p <+: q then none else t q

/-- `install -d -m`: a directory is made with those above it that are missing. -/
def makeDirectory (mode : Nat) (p : Place) (t : Tree F) : Option (Tree F) :=
  if isBlocked t p then none
  else some fun q ↦
    if q = p ∧ p ≠ [] then some (.directory mode)
    else if q <+: p ∧ q ≠ [] ∧ (t q).isNone then some (.directory 0o755)
    else t q

/-- `cp -R source/. target/`: what is in a directory goes into another one. -/
def copyContent (source target : Place) (t : Tree F) : Option (Tree F) :=
  if !isDirectory t source || !isDirectory t target || source.isPrefixOf target then none
  else some fun q ↦
    if target <+: q ∧ q ≠ target then (t (source ++ q.drop target.length)).or (t q) else t q

/-- `find -exec`: something is done to all objects at a place and below it. -/
def changeAll (change : Obj F → Obj F) (p : Place) (t : Tree F) : Option (Tree F) :=
  if p ≠ [] ∧ (t p).isNone then none
  else some fun q ↦ if p <+: q then (t q).map change else t q

def Obj.chmodDirectory (mode : Nat) : Obj F → Obj F
  | .directory _ => .directory mode
  | .file data old => .file data old
  | .link target => .link target

def Obj.chmodFile (mode : Nat) : Obj F → Obj F
  | .directory old => .directory old
  | .file data _ => .file data mode
  | .link target => .link target

/-- `mv`: what is moved to a directory goes into it, and an object at the new place is kept. -/
def move (source target : Place) (t : Tree F) : Option (Tree F) :=
  let place := if isDirectory t target then target ++ source.getLast?.toList else target
  if (t source).isNone ∨ source <+: place ∨ isDirectory t place.dropLast = false ∨
      (t place).isSome then none
  else some fun q ↦
    if place <+: q then t (source ++ q.drop place.length)
    else if source <+: q then none
    else t q

/-! ## When they succeed -/

theorem isDirectory_iff :
    isDirectory t p = true ↔ p = [] ∨ ∃ mode, t p = some (.directory mode) := by
  rw [isDirectory, Bool.or_eq_true, decide_eq_true_iff]
  apply or_congr_right
  cases h : t p with
  | none => simp
  | some o => cases o <;> simp

theorem isBlocked_eq_false_iff :
    isBlocked t p = false ↔ ∀ q, q <+: p → t q = none ∨ isDirectory t q = true := by
  rw [isBlocked, List.any_eq_false]
  apply forall_congr'
  intro q
  rw [List.mem_inits]
  apply imp_congr_right
  intro _
  cases t q <;> simp

theorem removeAll_of_ne (h : p ≠ []) :
    removeAll p t = some fun q ↦ if p <+: q then none else t q := if_neg h

theorem makeDirectory_of (h : isBlocked t p = false) {mode : Nat} :
    makeDirectory mode p t = some fun q ↦
      if q = p ∧ p ≠ [] then some (.directory mode)
      else if q <+: p ∧ q ≠ [] ∧ (t q).isNone then some (.directory 0o755)
      else t q := by
  rw [makeDirectory, h, if_neg Bool.false_ne_true]

theorem copyContent_of (hsource : isDirectory t source = true)
    (htarget : isDirectory t target = true) (hout : ¬source <+: target) :
    copyContent source target t = some fun q ↦
      if target <+: q ∧ q ≠ target then (t (source ++ q.drop target.length)).or (t q)
      else t q := by
  have hprefix : source.isPrefixOf target = false := by
    rw [← Bool.not_eq_true, List.isPrefixOf_iff_prefix]
    exact hout
  rw [copyContent, hsource, htarget, hprefix, if_neg (by simp)]

theorem changeAll_of {o : Obj F} {change : Obj F → Obj F} (h : t p = some o) :
    changeAll change p t = some fun q ↦ if p <+: q then (t q).map change else t q := by
  rw [changeAll, h, if_neg (by simp)]

/-- Something is moved to a free place in a directory. -/
theorem move_of {o : Obj F} (hsource : t source = some o) (htarget : t target = none)
    (hne : target ≠ []) (hout : ¬source <+: target)
    (hparent : isDirectory t target.dropLast = true) :
    move source target t = some fun q ↦
      if target <+: q then t (source ++ q.drop target.length)
      else if source <+: q then none
      else t q := by
  have hfree : isDirectory t target = false := by
    rw [← Bool.not_eq_true, isDirectory_iff, htarget]
    simp [hne]
  unfold move
  rw [hfree]
  simp only [Bool.false_eq_true, if_false]
  rw [if_neg (by simp [hsource, hout, hparent, htarget])]

end KaduoxSsh.UnixTree
