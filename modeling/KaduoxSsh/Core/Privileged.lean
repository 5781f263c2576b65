import KaduoxSsh.Core.Command
import KaduoxSsh.Lib.UnixTree
import KaduoxSsh.Transfer.PathContainment
import Mathlib.Algebra.Order.BigOperators.Group.List

/-!
# Installing a tree as another user

`privileged.rs`: a tree that has been staged below `/tmp` is copied to a work path
next to its destination, and the work path is then renamed to the destination. What
was at the destination is removed just before, so that the work path must not lie
in it.

The script is modelled twice: as the text that is sent, and as the steps that the
text spells, which act on the tree of the other side.
-/

namespace KaduoxSsh.Core

open Text UnixTree Transfer List

/-! ## Checks -/

/-- A number in octal digits. -/
def octal (n : Nat) : String := String.ofList (Nat.toDigits 8 n)

def validateMode (mode : Nat) : Result Unit :=
  if mode > 0o7777 then Result.bail s!"invalid file mode 0o{octal mode}; expected <= 0o7777"
  else .ok ()

def validateRecursiveDestination (path : String) : Result Unit :=
  if path = "" ∨ path = "/" then
    Result.bail
      "privileged recursive destination must not be empty or the filesystem root"
  else if (splitPath path).any fun component ↦ component = "." ∨ component = ".." then
    Result.bail <|
      "privileged recursive destination must not contain '.' or '..' path components: " ++ path
  else .ok ()

/-- The path that the destination is put together at. -/
def privilegedWorkPath (remotePath : String) : String := remotePath ++ ".kaduox.privileged.part"

/-- The name of the staged tree, for a time and the name of the source. -/
def stagingName (stamp : Nat) (fileName : String) : String :=
  ".kaduox-" ++ stamp.repr ++ "-" ++
    String.ofList (fileName.toList.map fun c ↦
      if c.isAlphanum || c ∈ ['.', '-', '_'] then c else '_')

/-- `unique_staging_path`. -/
def uniqueStagingPath (stamp : Nat) (fileName : String) : String :=
  "/tmp/" ++ stagingName stamp fileName

/-! ## The script -/

def privilegedTreeInstallCommand (stagingPath remotePath workPath : String)
    (fileMode directoryMode : Nat) : String :=
  let staging := quotePosix stagingPath
  let target := quotePosix remotePath
  let work := quotePosix workPath
  "set -e" ++ "; " ++ "rm -rf -- " ++ work ++
    "; " ++ "install -d -m " ++ octal directoryMode ++ " -- " ++ work ++
    "; " ++ "cp -R -- " ++ staging ++ "/. " ++ work ++ "/" ++
    "; " ++ "find " ++ work ++ " -type d -exec chmod " ++ octal directoryMode ++
      " -- \x7b\x7d +" ++
    "; " ++ "find " ++ work ++ " -type f -exec chmod " ++ octal fileMode ++ " -- \x7b\x7d +" ++
    "; " ++ "if [ -e " ++ target ++ " ] || [ -L " ++ target ++ " ]; then rm -rf -- " ++ target ++
      "; fi" ++
    "; " ++ "mv -- " ++ work ++ " " ++ target

/-- A command of the script. -/
inductive InstallStep where
  | remove (path : String)
  | makeDirectory (mode : Nat) (path : String)
  | copyContent (source target : String)
  | chmodDirectories (mode : Nat) (path : String)
  | chmodFiles (mode : Nat) (path : String)
  | removeIfPresent (path : String)
  | move (source target : String)
deriving DecidableEq, Repr

namespace InstallStep

/-- A command as it is written. -/
def text : InstallStep → String
  | .remove path => "rm -rf -- " ++ quotePosix path
  | .makeDirectory mode path => "install -d -m " ++ octal mode ++ " -- " ++ quotePosix path
  | .copyContent source target =>
      "cp -R -- " ++ quotePosix source ++ "/. " ++ quotePosix target ++ "/"
  | .chmodDirectories mode path =>
      "find " ++ quotePosix path ++ " -type d -exec chmod " ++ octal mode ++ " -- \x7b\x7d +"
  | .chmodFiles mode path =>
      "find " ++ quotePosix path ++ " -type f -exec chmod " ++ octal mode ++ " -- \x7b\x7d +"
  | .removeIfPresent path =>
      "if [ -e " ++ quotePosix path ++ " ] || [ -L " ++ quotePosix path ++ " ]; then rm -rf -- " ++
        quotePosix path ++ "; fi"
  | .move source target => "mv -- " ++ quotePosix source ++ " " ++ quotePosix target

end InstallStep

/-- The commands of the script. -/
def installSteps (stagingPath remotePath workPath : String) (fileMode directoryMode : Nat) :
    List InstallStep :=
  [.remove workPath, .makeDirectory directoryMode workPath, .copyContent stagingPath workPath,
   .chmodDirectories directoryMode workPath, .chmodFiles fileMode workPath,
   .removeIfPresent remotePath, .move workPath remotePath]

/-- Commands one after the other, of which the first that fails ends the script. -/
def scriptText (steps : List InstallStep) : String :=
  steps.foldl (fun text step ↦ text ++ "; " ++ step.text) "set -e"

/-! ## What the script does -/

/-- Where a path leads from a working directory. -/
def placeOf (cwd : Place) (path : String) : Place :=
  (if isAbsolute path then [] else cwd) ++ remoteComponents path

section

variable {F : Type}

/-- What is at a place is removed when there is something, the root being always there. -/
def removePresent (p : Place) (t : UnixTree.Tree F) : Option (UnixTree.Tree F) :=
  if p = [] ∨ (t p).isSome then removeAll p t else some t

namespace InstallStep

def operands : InstallStep → List String
  | .remove path | .makeDirectory _ path | .chmodDirectories _ path | .chmodFiles _ path
  | .removeIfPresent path => [path]
  | .copyContent source target | .move source target => [source, target]

def modes : InstallStep → List Nat
  | .makeDirectory mode _ | .chmodDirectories mode _ | .chmodFiles mode _ => [mode]
  | _ => []

/-- `find` reads a path that starts with a dash as a part of its expression, and knows none of
those. -/
def isExpression (path : String) : Bool := decide (path.toList.head? = some '-')

/-- The tree behind a command, or none when the command fails. -/
def run (cwd : Place) (t : UnixTree.Tree F) (step : InstallStep) : Option (UnixTree.Tree F) :=
  -- No operand of a command has a NUL in it.
  if step.operands.any fun path ↦ path.toList.contains '\x00' then none
  else if step.modes.any fun mode ↦ mode > 0o7777 then none
  else
    match step with
    | .remove path => removeAll (placeOf cwd path) t
    | .makeDirectory mode path => UnixTree.makeDirectory mode (placeOf cwd path) t
    | .copyContent source target =>
        UnixTree.copyContent (placeOf cwd source) (placeOf cwd target) t
    | .chmodDirectories mode path =>
        if isExpression path then none
        else changeAll (Obj.chmodDirectory mode) (placeOf cwd path) t
    | .chmodFiles mode path =>
        if isExpression path then none
        else changeAll (Obj.chmodFile mode) (placeOf cwd path) t
    | .removeIfPresent path => removePresent (placeOf cwd path) t
    | .move source target => UnixTree.move (placeOf cwd source) (placeOf cwd target) t

end InstallStep

/-- The tree behind the script, or none when a command fails. -/
def runInstall (cwd : Place) (stagingPath remotePath : String) (fileMode directoryMode : Nat)
    (t : UnixTree.Tree F) : Option (UnixTree.Tree F) :=
  (installSteps stagingPath remotePath (privilegedWorkPath remotePath) fileMode
    directoryMode).foldlM (InstallStep.run cwd) t

end

/-! ## The work path -/

/-- What `privilegedWorkPath` puts behind the last name. -/
def workSuffix : String := ".kaduox.privileged.part"

/-- A path that ends with a slash, whose last name is empty. -/
def EndsWithSlash (path : String) : Prop := path.toList.getLast? = some '/'

instance (path : String) : Decidable (EndsWithSlash path) := inferInstanceAs (Decidable (_ = _))

section

variable {path destination : String} {cwd : Place}

theorem filter_name {name : String} (h : name ≠ "" ∧ name ≠ ".") :
    [name].filter (fun name ↦ name ≠ "" ∧ name ≠ ".") = [name] := by
  simp [h]

/-- The names of a path, the last one of which may be empty, and those of its work path. -/
theorem remoteComponents_workPath (path : String) :
    ∃ front last, last ∈ splitPath path ∧
      (last = "" ↔ path = "" ∨ EndsWithSlash path) ∧
      remoteComponents path = front ++ [last].filter (fun name ↦ name ≠ "" ∧ name ≠ ".") ∧
      remoteComponents (privilegedWorkPath path) = front ++ [last ++ workSuffix] := by
  have hkept : ∀ b, (String.ofList b ++ workSuffix ≠ "" ∧ String.ofList b ++ workSuffix ≠ ".") := by
    intro b
    have hlength : 2 ≤ (String.ofList b ++ workSuffix).toList.length := by
      rw [String.toList_append, length_append]
      exact Nat.le_trans (by decide) (Nat.le_add_left _ _)
    constructor
    · intro h
      rw [h] at hlength
      exact absurd hlength (by decide)
    · intro h
      rw [h] at hlength
      exact absurd hlength (by decide)
  have hslash : '/' ∉ workSuffix.toList := by decide
  have hwork : (privilegedWorkPath path).toList = path.toList ++ workSuffix.toList :=
    String.toList_append
  have hname : ∀ b, String.ofList (b ++ workSuffix.toList) = String.ofList b ++ workSuffix := by
    intro b
    rw [String.ofList_append, String.ofList_toList]
  cases hsplit : rsplitOnce '/' path.toList with
  | none =>
      have hplain : '/' ∉ path.toList := by
        intro hmem
        obtain ⟨a, b, heq⟩ := append_of_mem hmem
        exact rsplitOnce_ne_none a b (heq ▸ hsplit)
      have hplain' : '/' ∉ path.toList ++ workSuffix.toList := by
        rw [mem_append, not_or]
        exact ⟨hplain, hslash⟩
      refine ⟨[], path, ?_, ?_, ?_, ?_⟩
      · rw [splitPath, splitOn_eq_singleton hplain, map_singleton, String.ofList_toList]
        exact mem_singleton_self path
      · have hend : ¬EndsWithSlash path := fun h ↦ hplain (mem_of_getLast? h)
        simp [hend]
      · rw [remoteComponents, splitPath, splitOn_eq_singleton hplain, map_singleton,
          String.ofList_toList, nil_append]
      · rw [remoteComponents, splitPath, hwork, splitOn_eq_singleton hplain',
          map_singleton, hname, String.ofList_toList, nil_append]
        have hpath := hkept path.toList
        rw [String.ofList_toList] at hpath
        exact filter_name hpath
  | some parts =>
      obtain ⟨a, b⟩ := parts
      obtain ⟨heq, hb⟩ := rsplitOnce_eq_some hsplit
      have hb' : '/' ∉ b ++ workSuffix.toList := by
        rw [mem_append, not_or]
        exact ⟨hb, hslash⟩
      have hpieces : path.toList.splitOn '/' = a.splitOn '/' ++ [b] := by
        rw [heq, splitOn_append_cons_of_beq _ _ (by rfl), splitOn_eq_singleton hb]
      have hpieces' : (privilegedWorkPath path).toList.splitOn '/' =
          a.splitOn '/' ++ [b ++ workSuffix.toList] := by
        rw [hwork, heq, append_assoc, cons_append,
          splitOn_append_cons_of_beq _ _ (by rfl), splitOn_eq_singleton hb']
      refine ⟨((a.splitOn '/').map String.ofList).filter fun name ↦ name ≠ "" ∧ name ≠ ".",
        String.ofList b, ?_, ?_, ?_, ?_⟩
      · rw [splitPath, hpieces, map_append]
        simp
      · have hne : path ≠ "" := by
          rintro rfl
          cases a <;> cases heq
        rw [or_iff_right hne, EndsWithSlash, heq]
        cases b with
        | nil => simp
        | cons c b =>
            have hlast : (a ++ '/' :: c :: b).getLast? = (c :: b).getLast? := by
              rw [List.getLast?_append_cons, List.getLast?_cons_cons]
            rw [hlast]
            refine iff_of_false (by simp [← String.toList_inj]) fun h ↦ hb (mem_of_getLast? h)
      · rw [remoteComponents, splitPath, hpieces, map_append, filter_append]
        rfl
      · rw [remoteComponents, splitPath, hpieces', map_append, filter_append,
          map_singleton, hname, filter_name (hkept b)]

theorem validateRecursiveDestination_eq_ok :
    validateRecursiveDestination destination = .ok () ↔
      (destination ≠ "" ∧ destination ≠ "/") ∧
        ∀ component ∈ splitPath destination, component ≠ "." ∧ component ≠ ".." := by
  rw [validateRecursiveDestination, Result.ite_bail_eq_ok, Result.ite_bail_eq_ok, not_or]
  simp

theorem isAbsolute_workPath (hne : destination ≠ "") :
    isAbsolute (privilegedWorkPath destination) = isAbsolute destination := by
  have hlist : destination.toList ≠ [] := by simpa using hne
  rw [isAbsolute, isAbsolute, privilegedWorkPath, String.toList_append,
    List.head?_append_of_ne_nil _ hlist]

/-- The work path of a destination that ends with a slash lies in the destination. -/
theorem placeOf_workPath_of_slash (hslash : EndsWithSlash destination) :
    placeOf cwd (privilegedWorkPath destination) = placeOf cwd destination ++ [workSuffix] := by
  have hne : destination ≠ "" := by
    rintro rfl
    cases hslash
  obtain ⟨front, last, -, hlast, hnames, hwork⟩ := remoteComponents_workPath destination
  have hempty : last = "" := hlast.mpr (.inr hslash)
  subst hempty
  have hfilter : [""].filter (fun name ↦ name ≠ "" ∧ name ≠ ".") = [] := by decide
  rw [hfilter, append_nil] at hnames
  rw [placeOf, placeOf, isAbsolute_workPath hne, hwork, hnames, String.empty_append,
    append_assoc]

/-- The work path of another destination lies next to it. -/
theorem placeOf_workPath (haccepted : validateRecursiveDestination destination = .ok ())
    (hslash : ¬EndsWithSlash destination) :
    ∃ front : Place → Place, ∃ last, (∀ cwd, placeOf cwd destination = front cwd ++ [last]) ∧
      ∀ cwd, placeOf cwd (privilegedWorkPath destination) = front cwd ++ [last ++ workSuffix] := by
  obtain ⟨⟨hne, -⟩, hdots⟩ := validateRecursiveDestination_eq_ok.mp haccepted
  obtain ⟨front, last, hmem, hlast, hnames, hwork⟩ := remoteComponents_workPath destination
  have hkept : last ≠ "" ∧ last ≠ "." := by
    refine ⟨fun hempty ↦ ?_, (hdots last hmem).1⟩
    exact (hlast.mp hempty).elim hne hslash
  rw [filter_name hkept] at hnames
  refine ⟨fun cwd ↦ (if isAbsolute destination then [] else cwd) ++ front, last, ?_, ?_⟩
  · intro cwd
    rw [placeOf, hnames, append_assoc]
  · intro cwd
    rw [placeOf, isAbsolute_workPath hne, hwork, append_assoc]

theorem append_suffix_ne (last : String) : last ++ workSuffix ≠ last := by
  intro h
  have hlength := congrArg (List.length ∘ String.toList) h
  simp only [Function.comp_apply, String.toList_append, length_append] at hlength
  have hpos : 0 < workSuffix.toList.length := by decide
  omega

end

/-! ## Installing -/

/-- What an object of the staged tree is installed as. -/
def installed {F : Type} (fileMode directoryMode : Nat) (o : Obj F) : Obj F :=
  (o.chmodDirectory directoryMode).chmodFile fileMode

/-- A tree in which the staged tree can be installed: it is there, under a name that the work path
does not have, and nothing but directories stands above the destination. -/
structure Ready {F : Type} (cwd : Place) (stamp : Nat) (fileName destination : String)
    (t : UnixTree.Tree F) : Prop where
  staged : isDirectory t ["tmp", stagingName stamp fileName] = true
  fresh : stagingName stamp fileName ∉ placeOf cwd (privilegedWorkPath destination)
  unblocked : isBlocked t (placeOf cwd destination).dropLast = false

/-- The installation does what it is for: the destination is not the root, the work path is not in
the destination, and in every tree that is ready the destination ends up with what is staged, while
everything else stays but for what is at the work path and for directories that were missing. -/
structure KeepsStagedTree (destination : String) : Prop where
  notRoot : ∀ cwd, placeOf cwd destination ≠ []
  workOutside : ∀ cwd,
    ¬placeOf cwd destination <+: placeOf cwd (privilegedWorkPath destination)
  installs : ∀ (cwd : Place) (stamp : Nat) (fileName : String) (fileMode directoryMode : Nat)
    (t : UnixTree.Tree (List UInt8)), validateMode fileMode = .ok () →
    validateMode directoryMode = .ok () → Ready cwd stamp fileName destination t →
    ∃ t', runInstall cwd (uniqueStagingPath stamp fileName) destination fileMode directoryMode t =
        some t' ∧
      (∀ rest, t' (placeOf cwd destination ++ rest) =
        (t ("tmp" :: stagingName stamp fileName :: rest)).map
          (installed fileMode directoryMode)) ∧
      ∀ q, ¬placeOf cwd destination <+: q →
        ¬placeOf cwd (privilegedWorkPath destination) <+: q → t q ≠ none → t' q = t q

section

variable {F : Type} {stamp : Nat} {fileName destination : String} {cwd : Place}
  {t : UnixTree.Tree F}

/-- A staged tree lies below `/tmp`, under a name without slashes and without NUL. -/
theorem stagingName_plain {c : Char} (hc : c ∈ (stagingName stamp fileName).toList) :
    c ≠ '/' ∧ c ≠ '\x00' := by
  have hsafe : c ∈ ".kaduox-".toList ∨ c ∈ stamp.repr.toList ∨ c ∈ "-".toList ∨
      c ∈ fileName.toList.map fun c ↦ if c.isAlphanum || c ∈ ['.', '-', '_'] then c else '_' := by
    simpa [stagingName, String.toList_append, or_assoc] using hc
  have hfixed : ∀ d ∈ ".kaduox-".toList ++ "-".toList, d ≠ '/' ∧ d ≠ '\x00' := by decide
  rcases hsafe with h | h | h | h
  · exact hfixed c (mem_append_left _ h)
  · have hdigit : c.isDigit = true := by
      rw [Nat.toList_repr] at h
      exact Nat.isDigit_of_mem_toDigits (by decide) (by decide) h
    constructor
    · rintro rfl
      cases hdigit
    · rintro rfl
      cases hdigit
  · exact hfixed c (mem_append_right _ h)
  · obtain ⟨d, -, rfl⟩ := mem_map.mp h
    split_ifs with hkept
    · constructor
      · rintro rfl
        exact absurd hkept (by decide)
      · rintro rfl
        exact absurd hkept (by decide)
    · decide

theorem placeOf_staging :
    placeOf cwd (uniqueStagingPath stamp fileName) = ["tmp", stagingName stamp fileName] := by
  have hlist : (uniqueStagingPath stamp fileName).toList =
      [] ++ '/' :: ("tmp".toList ++ '/' :: (stagingName stamp fileName).toList) := by
    rw [uniqueStagingPath, String.toList_append]
    rfl
  have hslash : '/' ∉ (stagingName stamp fileName).toList := fun hc ↦ (stagingName_plain hc).1 rfl
  have htmp : '/' ∉ "tmp".toList := by decide
  have habsolute : isAbsolute (uniqueStagingPath stamp fileName) = true := by
    rw [isAbsolute, hlist]
    rfl
  have hsplit : splitPath (uniqueStagingPath stamp fileName) =
      ["", "tmp", stagingName stamp fileName] := by
    rw [splitPath, hlist, splitOn_append_cons_of_beq _ _ (by rfl),
      splitOn_append_cons_of_beq _ _ (by rfl), splitOn_nil,
      splitOn_eq_singleton htmp, splitOn_eq_singleton hslash]
    simp
  have hlength : 2 ≤ (stagingName stamp fileName).toList.length := by
    simp only [stagingName, String.toList_append, length_append]
    have hfront : 2 ≤ ".kaduox-".toList.length := by decide
    omega
  have hkept : stagingName stamp fileName ≠ "" ∧ stagingName stamp fileName ≠ "." := by
    constructor
    · intro h
      rw [h] at hlength
      exact absurd hlength (by decide)
    · intro h
      rw [h] at hlength
      exact absurd hlength (by decide)
  rw [placeOf, habsolute, if_pos rfl, remoteComponents, hsplit]
  simp [hkept]

/-! ## The commands on a tree -/

/-- The commands of the script on the places that they are about. -/
def installTree (fileMode directoryMode : Nat) (staging work target : Place)
    (t : UnixTree.Tree F) : Option (UnixTree.Tree F) := do
  let t ← removeAll work t
  let t ← UnixTree.makeDirectory directoryMode work t
  let t ← UnixTree.copyContent staging work t
  let t ← changeAll (Obj.chmodDirectory directoryMode) work t
  let t ← changeAll (Obj.chmodFile fileMode) work t
  let t ← removePresent target t
  UnixTree.move work target t

/-- An operand that the commands take for a path. -/
def PlainOperand (path : String) : Prop := '\x00' ∉ path.toList ∧ path.toList.head? ≠ some '-'

theorem validateMode_eq_ok {mode : Nat} : validateMode mode = .ok () ↔ mode ≤ 0o7777 := by
  rw [validateMode, Result.ite_bail_eq_ok, gt_iff_lt, not_lt]
  exact and_iff_left rfl

theorem runInstall_eq {fileMode directoryMode : Nat} (hne : destination ≠ "")
    (hplain : PlainOperand destination) (hfile : validateMode fileMode = .ok ())
    (hdirectory : validateMode directoryMode = .ok ()) :
    runInstall cwd (uniqueStagingPath stamp fileName) destination fileMode directoryMode t =
      installTree fileMode directoryMode ["tmp", stagingName stamp fileName]
        (placeOf cwd (privilegedWorkPath destination)) (placeOf cwd destination) t := by
  have hdestination : destination.toList.contains '\x00' = false := by
    simpa using hplain.1
  have hwork : (privilegedWorkPath destination).toList.contains '\x00' = false := by
    have hsuffix : '\x00' ∉ ".kaduox.privileged.part".toList := by decide
    simpa [privilegedWorkPath, String.toList_append, hsuffix] using hplain.1
  have hstaging : (uniqueStagingPath stamp fileName).toList.contains '\x00' = false := by
    have htmp : '\x00' ∉ "/tmp/".toList := by decide
    rw [← Bool.not_eq_true, contains_iff_mem, uniqueStagingPath, String.toList_append,
      mem_append, not_or]
    exact ⟨htmp, fun hc ↦ (stagingName_plain hc).2 rfl⟩
  have hexpression : InstallStep.isExpression (privilegedWorkPath destination) = false := by
    have hlist : destination.toList ≠ [] := by simpa using hne
    rw [InstallStep.isExpression, privilegedWorkPath, String.toList_append,
      List.head?_append_of_ne_nil _ hlist]
    exact decide_eq_false hplain.2
  have hfile' : decide (fileMode > 0o7777) = false :=
    decide_eq_false (not_lt.mpr (validateMode_eq_ok.mp hfile))
  have hdirectory' : decide (directoryMode > 0o7777) = false :=
    decide_eq_false (not_lt.mpr (validateMode_eq_ok.mp hdirectory))
  simp only [runInstall, installSteps, foldlM_cons, foldlM_nil, InstallStep.run,
    InstallStep.operands, InstallStep.modes, any_cons, any_nil, hdestination, hwork,
    hstaging, hexpression, hfile', hdirectory', Bool.or_false, Bool.false_eq_true, if_false,
    placeOf_staging, installTree, bind_pure]

/-- Places next to each other do not lie in each other. -/
theorem not_prefix_sibling {front rest : Place} {x y : String} (hne : y ≠ x) :
    ¬front ++ [y] <+: front ++ [x] ++ rest := by
  rw [append_assoc, prefix_append_right_inj, singleton_append,
    cons_prefix_cons]
  exact fun h ↦ hne h.1

theorem not_prefix_front {front q : Place} {x : String} (h : q <+: front) :
    ¬front ++ [x] <+: q := by
  intro hbegins
  have hlength := (hbegins.trans h).length_le
  rw [length_append, length_singleton] at hlength
  omega

section Phases

variable {fileMode directoryMode : Nat} {staging front : Place} {x y : String}

/-- The work path is made anew, as an empty directory. -/
theorem prepare_work (directoryMode : Nat) (hfront : isBlocked t front = false) :
    ∃ t', (removeAll (front ++ [x]) t >>= UnixTree.makeDirectory directoryMode (front ++ [x])) =
        some t' ∧
      (∀ rest, t' (front ++ [x] ++ rest) =
        if rest = [] then some (.directory directoryMode) else none) ∧
      (∀ q, ¬front ++ [x] <+: q → t q ≠ none ∨ ¬q <+: front → t' q = t q) ∧
      isDirectory t' front = true := by
  rw [isBlocked_eq_false_iff] at hfront
  obtain ⟨t₁, h₁, hgone, hkept⟩ : ∃ t₁, removeAll (front ++ [x]) t = some t₁ ∧
      (∀ q, front ++ [x] <+: q → t₁ q = none) ∧ ∀ q, ¬front ++ [x] <+: q → t₁ q = t q :=
    ⟨_, removeAll_of_ne (by simp), fun q hq ↦ if_pos hq, fun q hq ↦ if_neg hq⟩
  have hblocked : isBlocked t₁ (front ++ [x]) = false := by
    rw [isBlocked_eq_false_iff]
    intro q hq
    rcases prefix_concat_iff.mp hq with rfl | hq
    · exact .inl (hgone _ prefix_rfl)
    · rw [isDirectory, hkept q (not_prefix_front hq)]
      exact hfront q hq
  rw [h₁, Option.bind_eq_bind, Option.bind_some, makeDirectory_of hblocked]
  refine ⟨_, rfl, ?_, ?_, ?_⟩
  · intro rest
    cases rest with
    | nil => simp
    | cons name rest =>
        have hbelow : ¬front ++ [x] ++ name :: rest <+: front ++ [x] := by
          intro h
          have hlength := h.length_le
          rw [length_append, length_cons] at hlength
          omega
        have hdifferent : front ++ [x] ++ name :: rest ≠ front ++ [x] := by simp
        rw [if_neg fun h ↦ hdifferent h.1, if_neg fun h ↦ hbelow h.1,
          hgone _ (prefix_append ..)]
        rfl
  · intro q hq hstays
    have hdifferent : q ≠ front ++ [x] := fun h ↦ hq (h ▸ prefix_rfl)
    have hunmade : ¬(q <+: front ++ [x] ∧ q ≠ [] ∧ (t₁ q).isNone) := by
      rintro ⟨habove, -, hnone⟩
      rw [hkept q hq, Option.isNone_iff_eq_none] at hnone
      rcases hstays with hpresent | hoff
      · exact hpresent hnone
      · exact (prefix_concat_iff.mp habove).elim hdifferent hoff
    rw [if_neg fun h ↦ hdifferent h.1, if_neg hunmade, hkept q hq]
  · rw [isDirectory_iff]
    by_cases hnil : front = []
    · exact .inl hnil
    · have hdifferent : front ≠ front ++ [x] := by simp
      have hfree := hkept front (not_prefix_front prefix_rfl)
      rw [if_neg fun h ↦ hdifferent h.1]
      right
      rcases hfront front prefix_rfl with hnone | hdirectory
      · rw [if_pos ⟨prefix_append .., hnil, by rw [hfree, hnone]; rfl⟩]
        exact ⟨_, rfl⟩
      · obtain ⟨m, hm⟩ := (isDirectory_iff.mp hdirectory).resolve_left hnil
        rw [hfree, hm]
        simp

/-- What is staged is copied to the work path and gets its modes. -/
theorem fill_work (fileMode directoryMode : Nat) {work : Place} (hstaging : ∃ mode, t staging = some (.directory mode))
    (hwork : ∀ rest, t (work ++ rest) =
      if rest = [] then some (.directory directoryMode) else none)
    (hapart : ¬staging <+: work) :
    ∃ t', (UnixTree.copyContent staging work t >>= fun t ↦
          changeAll (Obj.chmodDirectory directoryMode) work t >>=
            changeAll (Obj.chmodFile fileMode) work) = some t' ∧
      (∀ rest, t' (work ++ rest) =
        (t (staging ++ rest)).map (installed fileMode directoryMode)) ∧
      ∀ q, ¬work <+: q → t' q = t q := by
  obtain ⟨mode, hmode⟩ := hstaging
  have hroot : t work = some (.directory directoryMode) := by
    have h := hwork []
    rwa [append_nil, if_pos rfl] at h
  obtain ⟨t₃, h₃, hroot₃, hbelow₃, hkept₃⟩ : ∃ t₃,
      UnixTree.copyContent staging work t = some t₃ ∧
      t₃ work = some (.directory directoryMode) ∧
      (∀ rest, rest ≠ [] → t₃ (work ++ rest) = t (staging ++ rest)) ∧
      ∀ q, ¬work <+: q → t₃ q = t q := by
    refine ⟨_, copyContent_of (isDirectory_iff.mpr (.inr ⟨mode, hmode⟩))
      (isDirectory_iff.mpr (.inr ⟨_, hroot⟩)) hapart, ?_, ?_, ?_⟩
    · simpa using hroot
    · intro rest hrest
      have hfree := hwork rest
      rw [if_neg hrest] at hfree
      rw [if_pos ⟨prefix_append .., by simpa using hrest⟩, drop_left, hfree,
        Option.or_none]
    · intro q hq
      rw [if_neg fun h ↦ hq h.1]
  obtain ⟨t₄, h₄, hbelow₄, hkept₄⟩ : ∃ t₄,
      changeAll (Obj.chmodDirectory directoryMode) work t₃ = some t₄ ∧
      (∀ rest, t₄ (work ++ rest) =
        (t₃ (work ++ rest)).map (Obj.chmodDirectory directoryMode)) ∧
      ∀ q, ¬work <+: q → t₄ q = t₃ q :=
    ⟨_, changeAll_of hroot₃, fun rest ↦ if_pos (prefix_append ..), fun q hq ↦ if_neg hq⟩
  have hroot₄ : t₄ work = some (.directory directoryMode) := by
    have h := hbelow₄ []
    rwa [append_nil, hroot₃] at h
  simp only [h₃, h₄, Option.bind_eq_bind, Option.bind_some, changeAll_of hroot₄]
  refine ⟨_, rfl, ?_, ?_⟩
  · intro rest
    rw [if_pos (prefix_append ..), hbelow₄, Option.map_map]
    by_cases hrest : rest = []
    · rw [hrest, append_nil, append_nil, hroot₃, hmode]
      rfl
    · rw [hbelow₃ rest hrest]
      rfl
  · intro q hq
    rw [if_neg hq, hkept₄ q hq, hkept₃ q hq]

/-- The work path takes the place of what is next to it. -/
theorem replace_target (hne : x ≠ y) (hwork : t (front ++ [x]) ≠ none)
    (hfront : isDirectory t front = true) :
    ∃ t', (removePresent (front ++ [y]) t >>= UnixTree.move (front ++ [x]) (front ++ [y])) =
        some t' ∧
      (∀ rest, t' (front ++ [y] ++ rest) = t (front ++ [x] ++ rest)) ∧
      ∀ q, ¬front ++ [y] <+: q → ¬front ++ [x] <+: q → t' q = t q := by
  have htarget : front ++ [y] ≠ [] := by simp
  obtain ⟨t₆, h₆, hgone, hkept⟩ : ∃ t₆, removePresent (front ++ [y]) t = some t₆ ∧
      t₆ (front ++ [y]) = none ∧ ∀ q, ¬front ++ [y] <+: q → t₆ q = t q := by
    unfold removePresent
    by_cases hpresent : (t (front ++ [y])).isSome
    · rw [if_pos (.inr hpresent), removeAll_of_ne htarget]
      exact ⟨_, rfl, if_pos prefix_rfl, fun q hq ↦ if_neg hq⟩
    · rw [if_neg fun h ↦ h.elim htarget hpresent]
      exact ⟨t, rfl, by simpa using hpresent, fun q _ ↦ rfl⟩
  have hsibling (rest : Place) : ¬front ++ [y] <+: front ++ [x] ++ rest :=
    not_prefix_sibling hne.symm
  have hsource : t₆ (front ++ [x]) = t (front ++ [x]) := by
    have hapart := hsibling []
    rw [append_nil] at hapart
    exact hkept _ hapart
  obtain ⟨o, ho⟩ := Option.ne_none_iff_exists'.mp hwork
  have hparent : isDirectory t₆ (front ++ [y]).dropLast = true := by
    rw [dropLast_concat, isDirectory, hkept front (not_prefix_front prefix_rfl)]
    exact hfront
  have hout : ¬front ++ [x] <+: front ++ [y] := by
    have hapart : ¬front ++ [x] <+: front ++ [y] ++ [] := not_prefix_sibling hne
    rwa [append_nil] at hapart
  rw [h₆, Option.bind_eq_bind, Option.bind_some,
    move_of (hsource.trans ho) hgone htarget hout hparent]
  refine ⟨_, rfl, ?_, ?_⟩
  · intro rest
    rw [if_pos (prefix_append ..), drop_left, hkept _ (hsibling rest)]
  · intro q hq hq'
    rw [if_neg hq, if_neg hq', hkept q hq]

/-- Where there is a staged tree apart from the work path, the commands put it at the target that
stands next to the work path. -/
theorem installTree_of (hne : x ≠ y) (hstaged : isDirectory t staging = true)
    (hapart : ¬staging <+: front ++ [x]) (hapart' : ¬front ++ [x] <+: staging)
    (hfront : isBlocked t front = false) :
    ∃ t', installTree fileMode directoryMode staging (front ++ [x]) (front ++ [y]) t = some t' ∧
      (∀ rest, t' (front ++ [y] ++ rest) =
        (t (staging ++ rest)).map (installed fileMode directoryMode)) ∧
      ∀ q, ¬front ++ [y] <+: q → ¬front ++ [x] <+: q → t q ≠ none → t' q = t q := by
  have hne_root : staging ≠ [] := fun hnil ↦ hapart (hnil ▸ nil_prefix)
  obtain ⟨mode, hmode⟩ := (isDirectory_iff.mp hstaged).resolve_left hne_root
  obtain ⟨t₂, h₂, hempty, hkept₂, hfront₂⟩ := prepare_work (x := x) directoryMode hfront
  -- What is staged is neither above nor below the work path.
  have hstaged₂ (rest : Place) : t₂ (staging ++ rest) = t (staging ++ rest) := by
    apply hkept₂
    · intro h
      rcases prefix_or_prefix_of_prefix h (prefix_append staging rest) with h | h
      · exact hapart' h
      · exact hapart h
    · right
      intro h
      exact hapart ((prefix_append staging rest).trans (h.trans (prefix_append ..)))
  have hstaging : ∃ mode, t₂ staging = some (.directory mode) := by
    refine ⟨mode, ?_⟩
    have h := hstaged₂ []
    rw [append_nil] at h
    rw [h, hmode]
  obtain ⟨t₅, h₅, hfilled, hkept₅⟩ := fill_work fileMode directoryMode hstaging hempty hapart
  have hwork : t₅ (front ++ [x]) ≠ none := by
    have h := hfilled []
    rw [append_nil, hstaged₂, append_nil, hmode] at h
    rw [h]
    exact Option.some_ne_none _
  have hfront₅ : isDirectory t₅ front = true := by
    rw [isDirectory, hkept₅ front (not_prefix_front prefix_rfl)]
    exact hfront₂
  obtain ⟨t₇, h₇, hmoved, hkept₇⟩ := replace_target hne hwork hfront₅
  refine ⟨t₇, ?_, ?_, ?_⟩
  · obtain ⟨t₁, h₁, h₂⟩ := Option.bind_eq_some_iff.mp h₂
    obtain ⟨t₃, h₃, h₅⟩ := Option.bind_eq_some_iff.mp h₅
    obtain ⟨t₄, h₄, h₅⟩ := Option.bind_eq_some_iff.mp h₅
    simp only [installTree, h₁, h₂, h₃, h₄, h₅, Option.bind_eq_bind, Option.bind_some]
    exact h₇
  · intro rest
    rw [hmoved, hfilled, hstaged₂]
  · intro q htarget hwork hpresent
    rw [hkept₇ q htarget hwork, hkept₅ q hwork, hkept₂ q hwork (.inl hpresent)]

end Phases

/-! ## When the staged tree is kept -/

/-- A command that fails in every tree makes the script fail. -/
theorem foldlM_run_eq_none {steps : List InstallStep} {step : InstallStep} (hmem : step ∈ steps)
    (hfails : ∀ t : UnixTree.Tree F, step.run cwd t = none) :
    steps.foldlM (InstallStep.run cwd) t = none := by
  induction steps generalizing t with
  | nil => cases hmem
  | cons first rest ih =>
      rw [foldlM_cons]
      rcases mem_cons.mp hmem with rfl | hmem
      · rw [hfails, Option.bind_eq_bind, Option.bind_none]
      · cases first.run cwd t with
        | none => rfl
        | some t' => exact ih hmem

/-- With an operand that is not taken for a path the script fails. -/
theorem runInstall_eq_none {fileMode directoryMode : Nat} (hne : destination ≠ "")
    (hplain : ¬PlainOperand destination) :
    runInstall cwd (uniqueStagingPath stamp fileName) destination fileMode directoryMode t =
      none := by
  by_cases hnul : '\x00' ∈ destination.toList
  · have hmem : .remove (privilegedWorkPath destination) ∈
        installSteps (uniqueStagingPath stamp fileName) destination
          (privilegedWorkPath destination) fileMode directoryMode := mem_cons_self
    apply foldlM_run_eq_none hmem
    intro t
    rw [InstallStep.run, if_pos]
    simp [InstallStep.operands, privilegedWorkPath, hnul]
  · have hdash : destination.toList.head? = some '-' := by
      by_contra hdash
      exact hplain ⟨hnul, hdash⟩
    have hlist : destination.toList ≠ [] := by simpa using hne
    have hexpression : InstallStep.isExpression (privilegedWorkPath destination) = true := by
      rw [InstallStep.isExpression, privilegedWorkPath, String.toList_append,
        List.head?_append_of_ne_nil _ hlist]
      exact decide_eq_true hdash
    have hmem : .chmodDirectories directoryMode (privilegedWorkPath destination) ∈
        installSteps (uniqueStagingPath stamp fileName) destination
          (privilegedWorkPath destination) fileMode directoryMode := by simp [installSteps]
    apply foldlM_run_eq_none hmem
    intro t
    rw [InstallStep.run]
    split_ifs <;> rfl

theorem exists_fresh (names : List String) : ∃ fileName, stagingName 0 fileName ∉ names := by
  let bound := (names.map (·.toList.length)).sum
  refine ⟨String.ofList (List.replicate bound 'a'), fun hmem ↦ ?_⟩
  have hle : (stagingName 0 (String.ofList (List.replicate bound 'a'))).toList.length ≤ bound :=
    le_sum_of_mem (mem_map_of_mem hmem)
  simp only [stagingName, String.toList_append, length_append, String.toList_ofList,
    length_map, length_replicate] at hle
  have hfront : 0 < ".kaduox-".toList.length := by decide
  omega

/-- Every destination that is accepted has a tree that is ready for it. -/
theorem exists_ready (destination : String) :
    ∃ fileName, ∃ t : UnixTree.Tree (List UInt8), Ready [] 0 fileName destination t := by
  obtain ⟨fileName, hfresh⟩ := exists_fresh (placeOf [] (privilegedWorkPath destination))
  refine ⟨fileName, fun _ ↦ some (.directory 0o755), ?_, hfresh, ?_⟩
  · exact isDirectory_iff.mpr (.inr ⟨_, rfl⟩)
  · exact isBlocked_eq_false_iff.mpr fun q _ ↦ .inr (isDirectory_iff.mpr (.inr ⟨_, rfl⟩))

theorem not_keepsStagedTree_of_slash (hslash : EndsWithSlash destination) :
    ¬KeepsStagedTree destination := by
  intro h
  apply h.workOutside []
  rw [placeOf_workPath_of_slash hslash]
  exact prefix_append ..

/-- An accepted destination keeps the staged tree if and only if it does not end with a slash and
is no operand that is taken for something else than a path. -/
theorem keepsStagedTree_iff (destination : String)
    (haccepted : validateRecursiveDestination destination = .ok ()) :
    KeepsStagedTree destination ↔ ¬EndsWithSlash destination ∧ PlainOperand destination := by
  have hne := (validateRecursiveDestination_eq_ok.mp haccepted).1.1
  constructor
  · intro h
    refine ⟨fun hslash ↦ not_keepsStagedTree_of_slash hslash h, ?_⟩
    by_contra hplain
    obtain ⟨fileName, t, hready⟩ := exists_ready destination
    obtain ⟨t', hrun, -⟩ := h.installs [] 0 fileName 0 0 t rfl rfl hready
    rw [runInstall_eq_none hne hplain] at hrun
    cases hrun
  · rintro ⟨hslash, hplain⟩
    obtain ⟨front, last, htarget, hwork⟩ := placeOf_workPath haccepted hslash
    refine ⟨?_, ?_, ?_⟩
    · intro cwd
      rw [htarget]
      simp
    · intro cwd
      have hapart : ¬front cwd ++ [last] <+: front cwd ++ [last ++ workSuffix] ++ [] :=
        not_prefix_sibling (append_suffix_ne last).symm
      rw [append_nil] at hapart
      rw [htarget, hwork]
      exact hapart
    · intro cwd stamp fileName fileMode directoryMode t hfile hdirectory hready
      have hfresh := hready.fresh
      have hfront := hready.unblocked
      rw [hwork] at hfresh
      rw [htarget, dropLast_concat] at hfront
      have hapart : ¬["tmp", stagingName stamp fileName] <+: front cwd ++ [last ++ workSuffix] :=
        fun h ↦ hfresh (h.subset (by simp))
      have hapart' : ¬front cwd ++ [last ++ workSuffix] <+: ["tmp", stagingName stamp fileName] := by
        intro h
        have hmem : last ++ workSuffix ∈ ["tmp", stagingName stamp fileName] :=
          h.subset (by simp)
        rcases mem_cons.mp hmem with htmp | hname
        · have hlength := congrArg (List.length ∘ String.toList) htmp
          simp only [Function.comp_apply, String.toList_append, length_append] at hlength
          have hlong : "tmp".toList.length < workSuffix.toList.length := by decide
          omega
        · exact hfresh (mem_append_right _ (by rw [mem_singleton.mp hname]; simp))
      rw [runInstall_eq hne hplain hfile hdirectory, hwork, htarget]
      exact installTree_of (append_suffix_ne last) hready.staged hapart hapart' hfront

end

theorem keepsStagedTree_app :
    validateRecursiveDestination "/srv/app" = .ok () ∧ KeepsStagedTree "/srv/app" :=
  ⟨by decide,
    (keepsStagedTree_iff "/srv/app" (by decide)).mpr
      ⟨by decide, by decide, by decide⟩⟩

/-- A destination with a trailing slash is accepted, and its work path lies in it; so is a spelling
of the root. -/
theorem trailing_slash_accepted :
    ¬(validateRecursiveDestination "/srv/app/" = .ok () → KeepsStagedTree "/srv/app/") ∧
      ¬(validateRecursiveDestination "//" = .ok () → KeepsStagedTree "//") := by
  have happ : validateRecursiveDestination "/srv/app/" = .ok () := by decide
  have hroot : validateRecursiveDestination "//" = .ok () := by decide
  have hslash : EndsWithSlash "/srv/app/" := by decide
  have hslash' : EndsWithSlash "//" := by decide
  exact ⟨fun h ↦ not_keepsStagedTree_of_slash hslash (h happ),
    fun h ↦ not_keepsStagedTree_of_slash hslash' (h hroot)⟩

end KaduoxSsh.Core
