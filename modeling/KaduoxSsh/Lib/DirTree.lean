import KaduoxSsh.Lib.FileTree
import KaduoxSsh.Lib.Worklist
import Mathlib.Data.List.Induction
import Mathlib.Data.List.Lex
import Mathlib.Data.List.Nodup

/-!
# Trees of directories

File trees whose paths are lists of names, the empty one being the root, which is
always a directory. `children` lists a directory, and a walk with a stack over
`subdirs` visits every directory below the one it starts at.
-/

namespace KaduoxSsh

open List

universe u v

abbrev DirTree (N : Type u) (F : Type v) [LinearOrder N] := FileTree (List N) F

namespace DirTree

open Worklist

variable {N : Type u} {F : Type v} [LinearOrder N] {t : DirTree N F} {dir path below : List N}
  {name : N} {n : Node F}

/-- The directory that a path lies in, `none` when it is the root. -/
def parentDir (path : List N) : Option (List N) :=
  if path.dropLast = [] then none else some path.dropLast

omit [LinearOrder N] in
theorem parentDir_eq_some_iff : parentDir path = some dir ↔ dir ≠ [] ∧ path.dropLast = dir := by
  unfold parentDir
  split
  · next h =>
    constructor
    · intro hnone
      cases hnone
    · rintro ⟨hne, heq⟩
      exact absurd (heq.symm.trans h) hne
  · next h =>
    rw [Option.some.injEq]
    exact ⟨fun heq ↦ ⟨heq ▸ h, heq⟩, fun heq ↦ heq.2⟩

/-- The name of an entry of a directory. -/
def nameIn (dir path : List N) : Option N :=
  path.getLast?.filter fun name ↦ path = dir ++ [name]

theorem nameIn_eq_some_iff : nameIn dir path = some name ↔ path = dir ++ [name] := by
  rw [nameIn, Option.filter_eq_some_iff, decide_eq_true_eq]
  refine ⟨fun h ↦ h.2, fun h ↦ ⟨?_, h⟩⟩
  rw [h, List.getLast?_concat]

variable (t dir) in
/-- The entries of a directory. -/
def children : List (N × Node F) :=
  t.entries.filterMap fun e ↦ (nameIn dir e.1).map fun name ↦ (name, e.2)

theorem mem_children : (name, n) ∈ t.children dir ↔ t.get? (dir ++ [name]) = some n := by
  rw [children, mem_filterMap, SortedMap.get?_eq_some_iff]
  constructor
  · rintro ⟨⟨path, m⟩, hmem, heq⟩
    obtain ⟨name', hname, heq⟩ := Option.map_eq_some_iff.mp heq
    cases heq
    rwa [← nameIn_eq_some_iff.mp hname]
  · intro hmem
    exact ⟨_, hmem, Option.map_eq_some_iff.mpr ⟨name, nameIn_eq_some_iff.mpr rfl, rfl⟩⟩

theorem children_names_nodup : ((t.children dir).map Prod.fst).Nodup := by
  have hpairs : (t.children dir).Pairwise fun a b ↦ a.1 ≠ b.1 := by
    refine List.Pairwise.filterMap _ (fun e e' hne b hb b' hb' heq ↦ hne ?_)
      (pairwise_map.mp (SortedMap.keys_nodup t))
    obtain ⟨name, hname, rfl⟩ := Option.map_eq_some_iff.mp hb
    obtain ⟨name', hname', rfl⟩ := Option.map_eq_some_iff.mp hb'
    rw [nameIn_eq_some_iff.mp hname, nameIn_eq_some_iff.mp hname']
    exact congrArg (fun name ↦ dir ++ [name]) heq
  exact pairwise_map.mpr hpairs

/-! ## Directories below a directory -/

def isDir : Node F → Bool
  | .dir => true
  | .file _ => false

theorem isDir_iff : isDir n = true ↔ n = .dir := by cases n <;> simp [isDir]

/-- The entries of a listing that are directories. -/
def dirsOf (dir : List N) (listing : List (N × Node F)) : List (List N) :=
  (listing.filter fun e ↦ isDir e.2).map fun e ↦ dir ++ [e.1]

variable (t) in
/-- The directories directly below a directory. -/
def subdirs (dir : List N) : List (List N) := dirsOf dir (t.children dir)

theorem mem_subdirs : path ∈ t.subdirs dir ↔
    ∃ name, path = dir ++ [name] ∧ t.get? path = some .dir := by
  rw [subdirs, dirsOf, mem_map]
  constructor
  · rintro ⟨⟨name, n⟩, hmem, rfl⟩
    obtain ⟨hmem, hdir⟩ := mem_filter.mp hmem
    rw [isDir_iff] at hdir
    subst hdir
    exact ⟨name, rfl, mem_children.mp hmem⟩
  · rintro ⟨name, rfl, hget⟩
    exact ⟨(name, .dir), mem_filter.mpr ⟨mem_children.mpr hget, rfl⟩, rfl⟩

theorem subdirs_nodup : (t.subdirs dir).Nodup := by
  have hnames : ((t.children dir).filter fun e ↦ isDir e.2).Pairwise fun a b ↦ a.1 ≠ b.1 :=
    (pairwise_map.mp children_names_nodup).filter _
  refine pairwise_map.mpr (hnames.imp fun hne heq ↦ hne ?_)
  exact singleton_injective (append_cancel_left heq)

/-- The names of a tree lead through directories. -/
structure WellFormed (t : DirTree N F) : Prop where
  root : t.get? [] = none
  parents : ∀ path name, t.get? (path ++ [name]) ≠ none → path = [] ∨ t.get? path = some .dir

theorem WellFormed.of_entries
    (h : ∀ e ∈ t.entries, e.1 ≠ [] ∧ (e.1.dropLast = [] ∨ t.get? e.1.dropLast = some .dir)) :
    t.WellFormed := by
  refine ⟨SortedMap.get?_eq_none_iff.mpr fun n hn ↦ (h _ hn).1 rfl, fun path name hne ↦ ?_⟩
  obtain ⟨n, hn⟩ := Option.ne_none_iff_exists'.mp hne
  have hparent := (h _ (SortedMap.get?_eq_some_iff.mp hn)).2
  rwa [dropLast_concat] at hparent

theorem descends_isPrefix {a b : List N} (h : Descends t.subdirs a b) : a <+: b := by
  induction h with
  | refl => exact prefix_rfl
  | tail _ hstep ih =>
      obtain ⟨name, rfl, -⟩ := mem_subdirs.mp hstep
      exact ih.trans (prefix_append _ _)

/-- The directories that a walk comes to. -/
theorem descends_iff (h : t.WellFormed) : Descends t.subdirs dir (dir ++ below) ↔
    below = [] ∨ t.get? (dir ++ below) = some .dir := by
  constructor
  · intro hdesc
    rcases Relation.ReflTransGen.cases_tail hdesc with heq | ⟨b, -, hstep⟩
    · exact .inl (append_right_eq_self.mp heq)
    · obtain ⟨name, -, hget⟩ := mem_subdirs.mp hstep
      exact .inr hget
  · rintro (rfl | hget)
    · rw [append_nil]
      exact .refl dir
    · induction below using List.reverseRecOn with
      | nil =>
          rw [append_nil]
          exact .refl dir
      | append_singleton front name ih =>
          rw [← append_assoc] at hget ⊢
          have hstep : dir ++ front ++ [name] ∈ t.subdirs (dir ++ front) :=
            mem_subdirs.mpr ⟨name, rfl, hget⟩
          refine .tail ?_ hstep
          cases hfront : front with
          | nil =>
              rw [append_nil]
          | cons first others =>
              rw [← hfront]
              refine ih ?_
              have hne : t.get? (dir ++ front ++ [name]) ≠ none := by
                rw [hget]
                exact Option.some_ne_none _
              rcases h.parents _ name hne with hnil | hdir
              · rw [hfront] at hnil
                exact absurd (append_eq_nil_iff.mp hnil).2 (cons_ne_nil _ _)
              · exact hdir

theorem subdirs_rank (dir : List N) : ∀ path ∈ t.subdirs dir, dir.length < path.length := by
  intro path hpath
  obtain ⟨name, rfl, -⟩ := mem_subdirs.mp hpath
  rw [length_append, length_singleton]
  exact Nat.lt_succ_self _

/-- Different entries of a directory have nothing below them in common. -/
theorem subdirs_apart (dir : List N) : (t.subdirs dir).Pairwise (Apart t.subdirs) := by
  refine (List.Pairwise.and_mem.mp subdirs_nodup).imp ?_
  rintro a b ⟨ha, hb, hne⟩ c hac hbc
  obtain ⟨name, rfl, -⟩ := mem_subdirs.mp ha
  obtain ⟨name', rfl, -⟩ := mem_subdirs.mp hb
  refine hne (List.IsPrefix.eq_of_length (prefix_of_prefix_length_le (descends_isPrefix hac)
    (descends_isPrefix hbc) ?_) ?_)
  · simp
  · simp

/-! ## The length of a walk -/

theorem countP_add_le {α : Type u} {p q r : α → Bool} {l : List α}
    (hp : ∀ x ∈ l, p x = true → r x = true) (hq : ∀ x ∈ l, q x = true → r x = true)
    (hpq : ∀ x ∈ l, p x = true → q x = false) : l.countP p + l.countP q ≤ l.countP r := by
  induction l with
  | nil => simp
  | cons a rest ih =>
      have hrest := ih (fun x hx ↦ hp x (mem_cons_of_mem a hx))
        (fun x hx ↦ hq x (mem_cons_of_mem a hx)) fun x hx ↦ hpq x (mem_cons_of_mem a hx)
      have hpa := hp a mem_cons_self
      have hqa := hq a mem_cons_self
      have hpqa := hpq a mem_cons_self
      simp only [countP_cons]
      cases hpv : p a <;> cases hqv : q a <;> cases hrv : r a <;> simp_all <;> omega

variable (t dir) in
/-- One more than the number of the entries below a directory. -/
def weight : Nat := t.entries.countP (fun e ↦ dir <+: e.1 ∧ dir ≠ e.1) + 1

/-- Directories none of which lies in another one weigh together no more than they hold. -/
theorem sum_weight_le {dirs : List (List N)} {inside : List N × Node F → Bool}
    (hkeys : ∀ d ∈ dirs, t.get? d ≠ none)
    (hinside : ∀ d ∈ dirs, ∀ e ∈ t.entries, d <+: e.1 → inside e = true)
    (hapart : dirs.Pairwise fun a b ↦ ∀ path, a <+: path → ¬b <+: path) :
    (dirs.map t.weight).sum ≤ t.entries.countP inside := by
  induction dirs generalizing inside with
  | nil => exact Nat.zero_le _
  | cons d rest ih =>
      obtain ⟨hd, hrest⟩ := pairwise_cons.mp hapart
      have hweight : t.weight d ≤ t.entries.countP fun e ↦ d <+: e.1 := by
        obtain ⟨n, hn⟩ := Option.ne_none_iff_exists'.mp (hkeys d mem_cons_self)
        have hself : 0 < t.entries.countP fun e ↦ decide (e.1 = d) :=
          countP_pos_iff.mpr ⟨(d, n), SortedMap.get?_eq_some_iff.mp hn, decide_eq_true rfl⟩
        have hsum := countP_add_le (l := t.entries) (p := fun e ↦ decide (d <+: e.1 ∧ d ≠ e.1))
          (q := fun e ↦ decide (e.1 = d)) (r := fun e ↦ decide (d <+: e.1))
          (fun e _ he ↦ decide_eq_true (of_decide_eq_true he).1)
          (fun e _ he ↦ decide_eq_true (of_decide_eq_true he ▸ prefix_rfl))
          (fun e _ he ↦ decide_eq_false fun heq ↦ (of_decide_eq_true he).2 heq.symm)
        rw [weight]
        omega
      have hothers : (rest.map t.weight).sum ≤
          t.entries.countP fun e ↦ inside e && !decide (d <+: e.1) := ih
        (fun a ha ↦ hkeys a (mem_cons_of_mem d ha))
        (fun a ha e he hae ↦ by
          rw [hinside a (mem_cons_of_mem d ha) e he hae,
            decide_eq_false fun hde ↦ hd a ha e.1 hde hae]
          rfl)
        hrest
      have hsum := countP_add_le (l := t.entries) (p := fun e ↦ decide (d <+: e.1))
        (q := fun e ↦ inside e && !decide (d <+: e.1)) (r := inside)
        (fun e he hde ↦ hinside d mem_cons_self e he (of_decide_eq_true hde))
        (fun e _ he ↦ (Bool.and_eq_true_iff.mp he).1)
        (fun e _ he ↦ by rw [he]; simp)
      rw [map_cons, sum_cons]
      omega

/-- The directories of a directory weigh less than it does. -/
theorem sum_weight_subdirs_lt : ((t.subdirs dir).map t.weight).sum < t.weight dir := by
  refine Nat.lt_succ_of_le (sum_weight_le (fun a ha ↦ ?_) (fun a ha e _ hae ↦ ?_) ?_)
  · obtain ⟨name, -, hget⟩ := mem_subdirs.mp ha
    rw [hget]
    exact Option.some_ne_none _
  · obtain ⟨name, rfl, -⟩ := mem_subdirs.mp ha
    refine decide_eq_true ⟨(prefix_append _ _).trans hae, fun heq ↦ ?_⟩
    have hlength := hae.length_le
    rw [← heq, length_append, length_singleton] at hlength
    exact Nat.not_succ_le_self _ hlength
  · refine (List.Pairwise.and_mem.mp subdirs_nodup).imp ?_
    rintro a b ⟨ha, hb, hne⟩ path hap hbp
    obtain ⟨name, rfl, -⟩ := mem_subdirs.mp ha
    obtain ⟨name', rfl, -⟩ := mem_subdirs.mp hb
    exact hne ((prefix_of_prefix_length_le hap hbp (by simp)).eq_of_length (by simp))

theorem sum_map_le_of_sublist {α : Type u} {l l' : List α} (h : l.Sublist l') (f : α → Nat) :
    (l.map f).sum ≤ (l'.map f).sum := by
  induction h with
  | slnil => exact Nat.le_refl _
  | cons a _ ih => exact ih.trans (Nat.le_add_left _ _)
  | cons_cons a _ ih => exact Nat.add_le_add_left ih _

/-- A walk that takes some of the directories, in any order, is over when it has visited as many of
them as there are entries, and one more. -/
theorem exhausts_of_subperm {next : List N → List (List N)}
    (hnext : ∀ d, (next d).Subperm (t.subdirs d)) (dir : List N) :
    Exhausts next (t.entries.length + 1) [dir] := by
  refine exhausts_of_weight t.weight (fun d ↦ ?_) ?_
  · obtain ⟨l, hperm, hsublist⟩ := hnext d
    rw [← (hperm.map t.weight).sum_eq]
    exact (sum_map_le_of_sublist hsublist t.weight).trans_lt sum_weight_subdirs_lt
  · rw [map_singleton, sum_singleton, weight]
    exact Nat.succ_le_succ countP_le_length

/-- A walk is over when it has visited as many directories as there are entries, and one more. -/
theorem exhausts_subdirs (t : DirTree N F) (dir : List N) :
    Exhausts t.subdirs (t.entries.length + 1) [dir] :=
  exhausts_of_subperm (fun _ ↦ List.Subperm.refl _) dir

/-- Such a walk visits no directory twice. -/
theorem visits_nodup_of_subperm {next : List N → List (List N)}
    (hnext : ∀ d, (next d).Subperm (t.subdirs d)) (fuel : Nat) (dir : List N) :
    (visits next fuel [dir]).Nodup := by
  have hsubset (d : List N) : ∀ path ∈ next d, path ∈ t.subdirs d := fun path h ↦ (hnext d).subset h
  have hdesc {a b : List N} (h : Descends next a b) : Descends t.subdirs a b :=
    Relation.ReflTransGen.mono (fun x y hy ↦ hsubset x y hy) a b h
  have hapart (d : List N) : (next d).Pairwise (Apart next) := by
    obtain ⟨l, hperm, hsublist⟩ := hnext d
    have hl : l.Pairwise (Apart next) := ((subdirs_apart d).sublist hsublist).imp
      fun h c hac hbc ↦ h c (hdesc hac) (hdesc hbc)
    exact hperm.pairwise hl fun h ↦ h.symm
  have hpairwise : (visits next fuel [dir]).Pairwise fun x y ↦ ¬Descends next y x :=
    visits_pairwise (fun d path hpath ↦ subdirs_rank d path (hsubset d path hpath)) hapart
      (pairwise_singleton _ dir)
  refine hpairwise.imp fun {a b} hnot (heq : a = b) ↦ hnot ?_
  rw [heq]
  exact .refl b

/-! ## What a walk visits -/

variable (t dir) in
/-- The directories that a walk visits, from one on. -/
def walkDirs : List (List N) := visits t.subdirs (t.entries.length + 1) [dir]

theorem mem_walkDirs (h : t.WellFormed) :
    path ∈ t.walkDirs dir ↔ ∃ below, path = dir ++ below ∧ (below = [] ∨ t.get? path = some .dir) := by
  rw [walkDirs, mem_visits (exhausts_subdirs t dir)]
  constructor
  · rintro ⟨a, ha, hdesc⟩
    rw [mem_singleton] at ha
    subst ha
    obtain ⟨below, rfl⟩ := descends_isPrefix hdesc
    exact ⟨below, rfl, (descends_iff h).mp hdesc⟩
  · rintro ⟨below, rfl, hbelow⟩
    exact ⟨dir, mem_cons_self, (descends_iff h).mpr hbelow⟩

/-- A directory is visited before what lies in it. -/
theorem walkDirs_pairwise (h : t.WellFormed) :
    (t.walkDirs dir).Pairwise fun a b ↦ ¬b <+: a := by
  have hpairwise : (t.walkDirs dir).Pairwise fun x y ↦ ¬Descends t.subdirs y x :=
    visits_pairwise (subdirs_rank (t := t)) subdirs_apart (pairwise_singleton _ dir)
  refine (List.Pairwise.and_mem.mp hpairwise).imp ?_
  rintro a b ⟨ha, hb, hdesc⟩ hbegins
  obtain ⟨rest, rfl⟩ := hbegins
  refine hdesc ((descends_iff h).mpr ?_)
  obtain ⟨below, heq, hbelow⟩ := (mem_walkDirs h).mp ha
  rcases hbelow with rfl | hget
  · -- The directory that the walk starts at is at the front of every path.
    obtain ⟨below', rfl, -⟩ := (mem_walkDirs h).mp hb
    rw [append_nil, append_assoc] at heq
    exact .inl (append_eq_nil_iff.mp (append_right_eq_self.mp heq)).2
  · exact .inr hget

variable (t dir) in
/-- The entries below a directory, in the order in which a walk comes by them. -/
def entriesBelow : List (List N × Node F) :=
  (t.walkDirs dir).flatMap fun d ↦ (t.children d).map fun e ↦ (d ++ [e.1], e.2)

theorem mem_entriesBelow (h : t.WellFormed) : (path, n) ∈ t.entriesBelow dir ↔
    t.get? path = some n ∧ ∃ below, path = dir ++ below ∧ below ≠ [] := by
  rw [entriesBelow, mem_flatMap]
  constructor
  · rintro ⟨d, hd, hmem⟩
    obtain ⟨⟨name, m⟩, hchild, heq⟩ := mem_map.mp hmem
    cases heq
    obtain ⟨below, rfl, -⟩ := (mem_walkDirs h).mp hd
    exact ⟨mem_children.mp hchild, below ++ [name], append_assoc _ _ _,
      append_ne_nil_of_right_ne_nil _ (cons_ne_nil _ _)⟩
  · rintro ⟨hget, below, rfl, hne⟩
    obtain ⟨front, name, rfl⟩ := eq_nil_or_concat below |>.resolve_left hne
    rw [concat_eq_append, ← append_assoc] at hget
    refine ⟨dir ++ front, (mem_walkDirs h).mpr ⟨front, rfl, ?_⟩, mem_map.mpr
      ⟨(name, n), mem_children.mpr hget, by rw [concat_eq_append, append_assoc]⟩⟩
    have hne : t.get? (dir ++ front ++ [name]) ≠ none := by
      rw [hget]
      exact Option.some_ne_none _
    exact (h.parents _ name hne).imp_left fun hnil ↦ (append_eq_nil_iff.mp hnil).2

/-- An entry comes after the directories that it lies in. -/
theorem entriesBelow_pairwise (h : t.WellFormed) :
    (t.entriesBelow dir).Pairwise fun a b ↦ ¬b.1 <+: a.1 := by
  refine pairwise_flatMap.mpr ⟨fun d _ ↦ ?_, (walkDirs_pairwise h).imp ?_⟩
  · refine pairwise_map.mpr ((pairwise_map.mp children_names_nodup).imp ?_)
    intro a b hne hbegins
    have heq := append_cancel_left (hbegins.eq_of_length (by simp))
    exact hne (singleton_injective heq).symm
  · rintro d d' hapart a ha b hb hbegins
    obtain ⟨e, -, rfl⟩ := mem_map.mp ha
    obtain ⟨e', -, rfl⟩ := mem_map.mp hb
    exact hapart (prefix_of_prefix_length_le ((prefix_append _ _).trans hbegins)
      (prefix_append _ _) (by simpa using hbegins.length_le))

variable (t dir) in
/-- A directory and the entries below it, in that order. -/
def subtree : List (List N × Node F) := (dir, .dir) :: t.entriesBelow dir

theorem mem_subtree (h : t.WellFormed) (hdir : t.get? dir = some .dir) :
    (path, n) ∈ t.subtree dir ↔ t.get? path = some n ∧ dir <+: path := by
  rw [subtree, mem_cons, mem_entriesBelow h]
  constructor
  · rintro (heq | ⟨hget, below, rfl, -⟩)
    · cases heq
      exact ⟨hdir, prefix_rfl⟩
    · exact ⟨hget, prefix_append _ _⟩
  · rintro ⟨hget, below, rfl⟩
    by_cases hne : below = []
    · subst hne
      rw [append_nil, hdir, Option.some.injEq] at hget
      subst hget
      rw [append_nil]
      exact .inl rfl
    · exact .inr ⟨hget, below, rfl, hne⟩

theorem subtree_pairwise (h : t.WellFormed) :
    (t.subtree dir).Pairwise fun a b ↦ ¬b.1 <+: a.1 := by
  refine pairwise_cons.mpr ⟨fun e he hinside ↦ ?_, entriesBelow_pairwise h⟩
  obtain ⟨-, below, heq, hne⟩ := (mem_entriesBelow h).mp he
  have hlength : e.1.length ≤ dir.length := hinside.length_le
  rw [heq, length_append] at hlength
  exact hne (length_eq_zero_iff.mp (by omega))

theorem subtree_keys_nodup (h : t.WellFormed) : ((t.subtree dir).map Prod.fst).Nodup :=
  pairwise_map.mpr ((subtree_pairwise h).imp fun {a b} hapart (heq : a.1 = b.1) ↦
    hapart (heq ▸ prefix_rfl))

/-- A subtree lists the entries of the tree whose paths begin with that of its directory. -/
theorem subtree_perm (h : t.WellFormed) (hdir : t.get? dir = some .dir) :
    (t.subtree dir).Perm (t.entries.filter fun e ↦ dir <+: e.1) := by
  refine (perm_ext_iff_of_nodup (List.Nodup.of_map _ (subtree_keys_nodup h))
    (t.entries_nodup.filter _)).mpr fun e ↦ ?_
  rw [mem_subtree h hdir, mem_filter, decide_eq_true_eq, SortedMap.get?_eq_some_iff]

/-- When what comes later in a subtree is gone, a directory of it is empty. -/
theorem get?_eq_none_of_subtree (h : t.WellFormed) (hdir : t.get? dir = some .dir)
    {front back : List (List N × Node F)} {e : List N × Node F} {t' : DirTree N F}
    (hsplit : t.subtree dir = front ++ e :: back)
    (hgone : ∀ key, t'.get? key = if key ∈ back.map Prod.fst then none else t.get? key)
    (hne : below ≠ []) : t'.get? (e.1 ++ below) = none := by
  rw [hgone, ite_eq_left_iff]
  intro hback
  by_contra hget
  obtain ⟨n, hn⟩ := Option.ne_none_iff_exists'.mp hget
  have hmem : e ∈ t.subtree dir := by
    rw [hsplit]
    exact mem_append_right _ mem_cons_self
  have hbelow : (e.1 ++ below, n) ∈ t.subtree dir :=
    (mem_subtree h hdir).mpr ⟨hn, ((mem_subtree h hdir).mp hmem).2.trans (prefix_append _ _)⟩
  have hpairwise : (t.subtree dir).Pairwise fun a b ↦ ¬b.1 <+: a.1 := subtree_pairwise h
  rw [hsplit] at hbelow hpairwise
  rcases mem_append.mp hbelow with hfront | htail
  · exact (pairwise_append.mp hpairwise).2.2 _ hfront e mem_cons_self
      (prefix_append _ _)
  · rcases mem_cons.mp htail with heq | hin
    · exact hne (append_right_eq_self.mp (congrArg Prod.fst heq))
    · exact hback (mem_map.mpr ⟨_, hin, rfl⟩)

theorem children_sorted : (t.children dir).Pairwise fun a b ↦ a.1 < b.1 := by
  refine List.Pairwise.filterMap _ (fun e e' hlt b hb b' hb' ↦ ?_) t.sorted
  obtain ⟨name, hname, rfl⟩ := Option.map_eq_some_iff.mp hb
  obtain ⟨name', hname', rfl⟩ := Option.map_eq_some_iff.mp hb'
  rw [nameIn_eq_some_iff.mp hname, nameIn_eq_some_iff.mp hname'] at hlt
  dsimp only
  by_contra hnot
  rcases lt_or_eq_of_le (not_lt.mp hnot) with hgt | heq
  · exact lt_asymm hlt (append_left_lt (cons_lt_cons_iff.mpr (.inl hgt)))
  · exact lt_irrefl _ (heq ▸ hlt)

end DirTree

end KaduoxSsh
