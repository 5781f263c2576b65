import KaduoxSsh.Transfer.AtomicSyncPreflight

/-!
# The uploads of an atomic synchronization

The uploads of a plan that the preflight has let pass run at the same time. Each finds
its destination free, and directories above it, when no file is uploaded twice, no
directory of the plan lies below a file that is uploaded, and no file is uploaded to
where another upload has its staging file, or below.
-/

namespace KaduoxSsh.Transfer

open Text Hierarchy FileTransfer List

/-! ## The names of staging files -/

theorem toDigits_of_le {n : Nat} (h : 16 ≤ n) :
    Nat.toDigits 16 n = Nat.toDigits 16 (n / 16) ++ [Nat.digitChar (n % 16)] := by
  have hmod : n % 16 < 16 := Nat.mod_lt n (by decide)
  rw [← Nat.toDigits_of_lt_base hmod, Nat.toDigits_append_toDigits (by decide) (by omega) hmod,
    Nat.div_add_mod]

theorem exists_digit {n : Nat} {c : Char} (h : c ∈ Nat.toDigits 16 n) :
    ∃ d < 16, c = Nat.digitChar d := by
  induction n using Nat.strongRecOn with
  | ind n ih =>
      rcases Nat.lt_or_ge n 16 with hlt | hge
      · rw [Nat.toDigits_of_lt_base hlt, mem_singleton] at h
        exact ⟨n, hlt, h⟩
      · rw [toDigits_of_le hge, mem_append, mem_singleton] at h
        rcases h with hfront | hlast
        · exact ih (n / 16) (by omega) hfront
        · exact ⟨n % 16, Nat.mod_lt n (by decide), hlast⟩

theorem digitChar_inj : ∀ a < 16, ∀ b < 16, Nat.digitChar a = Nat.digitChar b → a = b := by
  decide

theorem toDigits_injective : Function.Injective (Nat.toDigits 16) := by
  intro a
  induction a using Nat.strongRecOn with
  | ind a ih =>
      intro b h
      have hsingle : ∀ {n m : Nat}, n < 16 → 16 ≤ m → Nat.toDigits 16 n ≠ Nat.toDigits 16 m := by
        intro n m hn hm heq
        rw [Nat.toDigits_of_lt_base hn, toDigits_of_le hm] at heq
        have hlength := congrArg List.length heq
        have hpositive := length_pos_iff.mpr (Nat.toDigits_ne_nil : Nat.toDigits 16 (m / 16) ≠ [])
        rw [length_append, length_singleton, length_singleton] at hlength
        omega
      rcases Nat.lt_or_ge a 16 with ha | ha
      · rcases Nat.lt_or_ge b 16 with hb | hb
        · rw [Nat.toDigits_of_lt_base ha, Nat.toDigits_of_lt_base hb] at h
          exact digitChar_inj a ha b hb (singleton_injective h)
        · exact absurd h (hsingle ha hb)
      · rcases Nat.lt_or_ge b 16 with hb | hb
        · exact absurd h.symm (hsingle hb ha)
        · rw [toDigits_of_le ha, toDigits_of_le hb] at h
          obtain ⟨hfront, hlast⟩ := append_inj' h rfl
          have hdiv := ih (a / 16) (by omega) hfront
          have hmod := digitChar_inj _ (Nat.mod_lt a (by decide)) _ (Nat.mod_lt b (by decide))
            (singleton_injective hlast)
          omega


/-- What follows the last separator is the same. -/
theorem eq_of_append_separator {sep : Char} {a b x y : List Char} (hx : sep ∉ x) (hy : sep ∉ y)
    (h : a ++ sep :: x = b ++ sep :: y) : x = y := by
  have hcase : ∀ {a' x y : List Char}, sep ∉ x → sep :: x = a' ++ sep :: y → x = y := by
    intro a' x y hx heq
    cases a' with
    | nil => exact (cons_eq_cons.mp heq).2
    | cons c a' =>
        refine absurd ?_ hx
        rw [(cons_eq_cons.mp heq).2]
        exact mem_append_right _ mem_cons_self
  rcases append_eq_append_iff.mp h with ⟨a', -, heq⟩ | ⟨b', -, heq⟩
  · exact hcase hx heq
  · exact (hcase hy heq).symm

theorem not_mem_hexadecimal {n : Nat} {c : Char} (hc : ∀ d < 16, c ≠ Nat.digitChar d) :
    c ∉ (hexadecimal n).toList := by
  rw [hexadecimal, String.toList_ofList]
  intro hmem
  obtain ⟨d, hd, heq⟩ := exists_digit hmem
  exact hc d hd heq

/-- Texts that end with the same number after a dot. -/
theorem eq_of_append_hexadecimal {a b : String} {n m : Nat}
    (h : a ++ ("." ++ hexadecimal n) = b ++ ("." ++ hexadecimal m)) : n = m := by
  have hdot : ∀ n, '.' ∉ (hexadecimal n).toList := fun n ↦ not_mem_hexadecimal (by decide)
  have hlist := congrArg String.toList h
  simp only [String.toList_append] at hlist
  have hdigits := eq_of_append_separator (hdot n) (hdot m) hlist
  rw [hexadecimal, hexadecimal, String.toList_ofList, String.toList_ofList] at hdigits
  exact toDigits_injective hdigits

namespace SyncRun

variable {run : SyncRun} {i j : run.Index}

/-- What the name of a staging file has at its end. -/
def suffix (run : SyncRun) (i : run.Index) : String :=
  if run.options.resume then ".kaduox.part"
  else ".kaduox.part." ++ hexadecimal run.names.process ++ "." ++
    hexadecimal (run.names.stamp i) ++ "." ++ hexadecimal (run.names.serial i)

theorem workPath_eq : run.workPath i = run.remotePath i ++ run.suffix i := by
  unfold workPath suffix
  split <;> rfl

theorem slash_not_mem_suffix : '/' ∉ (run.suffix i).toList := by
  have hhexadecimal : ∀ n, '/' ∉ (hexadecimal n).toList := fun n ↦
    not_mem_hexadecimal (by decide)
  unfold suffix
  split
  · decide
  · simp [String.toList_append, hhexadecimal]

theorem suffix_ne : run.suffix i ≠ "" := by
  intro h
  have hlength := congrArg (fun s ↦ s.toList.length) h
  unfold suffix at hlength
  split at hlength
  · exact absurd hlength (by decide)
  · simp [String.toList_append] at hlength

theorem length_toList_pos {s : String} (h : s ≠ "") : 0 < s.toList.length :=
  length_pos_iff.mpr fun heq ↦ h (String.toList_inj.mp heq)

/-- Two uploads whose staging files have the same name have the same name. -/
theorem eq_of_suffix (hij : i ≠ j) {name name' : String}
    (h : name ++ run.suffix i = name' ++ run.suffix j) : name = name' := by
  unfold suffix at h
  split at h
  · have hlist := congrArg String.toList h
    rw [String.toList_append, String.toList_append] at hlist
    exact String.toList_inj.mp (append_cancel_right hlist)
  · have hnumbers : name ++ (".kaduox.part." ++ hexadecimal run.names.process ++ "." ++
          hexadecimal (run.names.stamp i)) ++ ("." ++ hexadecimal (run.names.serial i)) =
        name' ++ (".kaduox.part." ++ hexadecimal run.names.process ++ "." ++
          hexadecimal (run.names.stamp j)) ++ ("." ++ hexadecimal (run.names.serial j)) := by
      simpa only [String.append_assoc] using h
    exact absurd (Fin.ext (run.names.distinct (eq_of_append_hexadecimal hnumbers))) hij

/-! ## Where the uploads take place -/

/-- No file is uploaded twice, no new directory lies below a file that is uploaded, and no upload
goes to the staging file of another one, or below. -/
structure Compatible (run : SyncRun) : Prop where
  distinct : ∀ i j, i ≠ j → (run.action i).path ≠ (run.action j).path
  notAbove : ∀ i, ∀ other ∈ run.plan.actions, other.kind = .createRemoteDirectory →
    ¬IsAbove (run.action i).path other.path
  staging : ∀ i j, i ≠ j → ¬(run.job i).work <+: (run.job j).path

/-- The checks have passed, and so have the actions before the uploads. -/
structure Prepared (run : SyncRun) (platform : Platform) (paths : PathResolution) (t t' : ServerFiles) :
    Prop where
  atomic : run.options.atomic = true
  wellFormed : WellFormed IsDirectoryObject t
  valid : validateSyncPlan platform run.plan = .ok ()
  sources : run.source.preflightLocalSyncSources platform run.plan = .ok ()
  preflight : preflightAtomicSync t run.root run.plan = .ok ()
  applied : applyStructure paths run.root run.plan t = .ok t'

variable {platform : Platform} {paths : PathResolution} {t t' : ServerFiles}

theorem action_mem (i : run.Index) : run.action i ∈ run.plan.uploads := get_mem _ _

theorem Prepared.valid_path (h : run.Prepared platform paths t t') (i : run.Index) :
    validateRemoteRelativePath (run.action i).path = .ok () :=
  valid_of_validateSyncPlan h.valid _ (mem_filter.mp (action_mem i)).1

/-- The staging file of an upload lies beside its destination. -/
theorem Prepared.placed (h : run.Prepared platform paths t t') (i : run.Index) :
    ∃ dir name, place run.root (run.action i).path = dir ++ [name] ∧ (run.job i).path = dir ++ [name] ∧
      (run.job i).work = dir ++ [name ++ run.suffix i] := by
  have hvalid := h.valid_path i
  obtain ⟨front, last, hsplit⟩ : ∃ front last, splitPath (run.action i).path = front ++ [last] := by
    obtain ⟨front, last, hconcat⟩ := (eq_nil_or_concat _).resolve_left
      (splitPath_ne_nil (run.action i).path)
    exact ⟨front, last, by rw [hconcat, concat_eq_append]⟩
  have hplace : place run.root (run.action i).path = remoteComponents run.root ++ front ++ [last] := by
    rw [place, hsplit, append_assoc]
  refine ⟨remoteComponents run.root ++ front, last, hplace, ?_, ?_⟩
  · rw [← hplace]
    exact (joinRemoteUnderRoot_components hvalid).1
  · have hwork := splitPath_append_of_not_mem hsplit (slash_not_mem_suffix (i := i))
    have hnames : ∀ name ∈ splitPath ((run.action i).path ++ run.suffix i), name ≠ "" ∧ name ≠ "." := by
      rw [hwork]
      intro name hname
      have hplain := plainName_of_valid_path hvalid
      rw [hsplit] at hplain
      rcases mem_append.mp hname with hfront | hlast
      · have hname := hplain name (mem_append_left _ hfront)
        exact ⟨hname.nonempty, hname.not_dot⟩
      · rw [mem_singleton.mp hlast]
        have hlong : 2 ≤ (last ++ run.suffix i).toList.length := by
          have hlast := length_toList_pos (hplain last (by simp)).nonempty
          have hsuffix := length_toList_pos (suffix_ne (i := i))
          rw [String.toList_append, length_append]
          omega
        refine ⟨fun heq ↦ ?_, fun heq ↦ ?_⟩ <;>
          exact absurd (heq ▸ hlong) (by decide)
    show remoteComponents (run.workPath i) = _
    rw [workPath_eq, remotePath, String.append_assoc, remoteComponents_leading hnames, hwork,
      ← append_assoc]

/-- The uploads keep out of each other's way. -/
structure Apart (run : SyncRun) : Prop where
  placed : ∀ i, ∃ dir name stage, (run.job i).path = dir ++ [name] ∧
    (run.job i).work = dir ++ [stage] ∧ stage ≠ name
  path : ∀ i j, i ≠ j → ¬(run.job i).path <+: (run.job j).path
  work : ∀ i j, i ≠ j → ¬(run.job i).work <+: (run.job j).path
  works : ∀ i j, i ≠ j → (run.job i).work ≠ (run.job j).work

theorem Prepared.path_eq (h : run.Prepared platform paths t t') (i : run.Index) :
    (run.job i).path = place run.root (run.action i).path :=
  (joinRemoteUnderRoot_components (h.valid_path i)).1

theorem Prepared.apart (h : run.Prepared platform paths t t') (hcompatible : run.Compatible) :
    run.Apart where
  placed i := by
    obtain ⟨dir, name, -, hpath, hwork⟩ := h.placed i
    refine ⟨dir, name, _, hpath, hwork, fun heq ↦ suffix_ne (i := i) ?_⟩
    have hlist := congrArg String.toList heq
    rw [String.toList_append] at hlist
    exact String.toList_inj.mp (append_right_eq_self.mp hlist)
  path i j hij hunder := by
    rw [h.path_eq, h.path_eq, place, place, prefix_append_right_inj] at hunder
    exact not_isAbove_of_sources h.valid h.sources (action_mem i) (action_mem j)
      ⟨hunder, hcompatible.distinct i j hij⟩
  work := hcompatible.staging
  works i j hij heq := by
    obtain ⟨dir, name, hplace, -, hwork⟩ := h.placed i
    obtain ⟨dir', name', hplace', -, hwork'⟩ := h.placed j
    rw [hwork, hwork'] at heq
    obtain ⟨hdir, hlast⟩ := append_inj' heq rfl
    have hname := eq_of_suffix hij (singleton_injective hlast)
    have hsame : place run.root (run.action i).path = place run.root (run.action j).path := by
      rw [hplace, hplace', hdir, hname]
    exact hcompatible.distinct i j hij (splitPath_injective (append_cancel_left hsame))

end SyncRun


/-! ## Requests and directories -/

section

variable {o : TransferOptions} {job : FileTransfer (List String)} {t t' : ServerFiles}
  {phase phase' : FilePhase} {r : FileRequest} {dir : List String} {name stage : String}
  {found : Option Object}

theorem blocked_of_bytesAt {path : List String} {bytes : Bytes} (h : bytesAt t path = some bytes) :
    Blocked IsDirectoryObject t path := by
  obtain ⟨object, hget, hbytes⟩ := Option.bind_eq_some_iff.mp h
  refine ⟨object, hget, fun hkind ↦ ?_⟩
  rw [Object.bytes?, hkind] at hbytes
  cases hbytes

theorem blocked_of_regular {path : List String} {object : Object} {bytes : Bytes}
    (hget : t.get? path = some object) (hkind : object.kind = .regular bytes) :
    Blocked IsDirectoryObject t path := by
  refine ⟨object, hget, fun hdirectory ↦ ?_⟩
  rw [IsDirectoryObject, hkind] at hdirectory
  cases hdirectory

section

variable (hwf : WellFormed IsDirectoryObject t) (hparent : DirectoryAt IsDirectoryObject t dir)

include hwf hparent

/-- A file is made, or takes the place of one. -/
theorem wellFormed_insert_file {object : Object}
    (hfile : t.get? (dir ++ [name]) = none ∨ Blocked IsDirectoryObject t (dir ++ [name])) :
    WellFormed IsDirectoryObject (t.insert (dir ++ [name]) object) := by
  refine hwf.insert hparent fun hdirectory ↦ ?_
  rcases hfile with hnone | hblocked
  · rcases hdirectory with hnil | ⟨found, hget, -⟩
    · exact absurd hnil (by simp)
    · rw [hnone] at hget
      cases hget
  · exact absurd hdirectory (hblocked.not_directoryAt hwf)

theorem wellFormed_create {offset : Nat} {existing : Bool} {now mode : Option Nat}
    (htarget : job.target o = dir ++ [stage])
    (h : job.create o t offset existing now mode = some t') : WellFormed IsDirectoryObject t' := by
  unfold create at h
  rw [htarget] at h
  split at h
  · next hnone =>
    split at h
    · cases h
    · cases h
      exact wellFormed_insert_file hwf hparent (.inl hnone)
  · next object hobject =>
    split at h
    · next bytes hkind =>
      have hblocked := blocked_of_regular hobject hkind
      split at h
      · split at h
        · cases h
          exact hwf
        · cases h
      · split at h
        · cases h
          exact wellFormed_insert_file hwf hparent (.inr hblocked)
        · cases h
          exact hwf
    · cases h

theorem wellFormed_write {pos count : Nat} {now : Option Nat}
    (htarget : job.target o = dir ++ [stage]) (h : job.write o t pos count now = some t') :
    WellFormed IsDirectoryObject t' := by
  unfold write at h
  rw [htarget] at h
  split at h
  · next object hobject =>
    split at h
    · next bytes hkind =>
      cases h
      exact wellFormed_insert_file hwf hparent (.inr (blocked_of_regular hobject hkind))
    · cases h
  · cases h

theorem wellFormed_stampAt (h : job.stampAt t (dir ++ [name]) = some t') :
    WellFormed IsDirectoryObject t' := by
  unfold stampAt at h
  split at h
  · cases h
    exact hwf
  · obtain ⟨object, hobject, rfl⟩ := Option.map_eq_some_iff.mp h
    refine hwf.insert hparent fun hdirectory ↦ ?_
    rcases hdirectory with hnil | ⟨found, hget, hkind⟩
    · exact absurd hnil (by simp)
    · rw [hobject] at hget
      cases hget
      exact hkind

theorem wellFormed_publish (hdirection : job.direction = .upload)
    (hpath : job.path = dir ++ [name]) (hwork : job.work = dir ++ [stage])
    (hblocked : Blocked IsDirectoryObject t job.work) (h : job.publish t = some t') :
    WellFormed IsDirectoryObject t' := by
  unfold publish at h
  split at h
  · cases h
  · next hnone =>
    rw [not_not] at hnone
    obtain ⟨object, hobject, -⟩ := id hblocked
    rw [hdirection, hobject] at h
    cases h
    rw [hpath] at hnone ⊢
    refine wellFormed_insert_file (hwf.erase_of_blocked hblocked) (hparent.congr ?_) (.inl ?_)
    · rw [SortedMap.get?_erase, if_neg]
      rw [hwork]
      simp
    · rw [SortedMap.get?_erase, hnone, ite_self]

end

/-- An upload leaves its staging file where it is. -/
theorem request_abandon (hdirection : job.direction = .upload) :
    job.request o t phase .abandon = none := by
  have hdownload : ¬job.direction = .download := by
    rw [hdirection]
    decide
  unfold request
  cases phase <;> simp [hdownload]

/-- An upload leaves everything in a directory. -/
theorem wellFormed_request (hatomic : o.atomic = true) (hdirection : job.direction = .upload)
    (hpath : job.path = dir ++ [name]) (hwork : job.work = dir ++ [stage])
    (hwf : WellFormed IsDirectoryObject t) (hparent : DirectoryAt IsDirectoryObject t dir)
    (hprogress : job.WorkProgress o found t phase)
    (h : job.request o t phase r = some (t', phase')) : WellFormed IsDirectoryObject t' := by
  have htarget : job.target o = dir ++ [stage] := by
    rw [target, if_pos hatomic, hwork]
  have habandon : r ≠ .abandon := by
    rintro rfl
    rw [request_abandon hdirection] at h
    cases h
  replace h := requested h
  cases h with
  | inspect | skip | send | close => exact hwf
  | create _ h => exact wellFormed_create hwf hparent htarget h
  | write h =>
      obtain ⟨count, rest, -, -, hwrite⟩ := carryOut_eq_some h
      exact wellFormed_write hwf hparent htarget hwrite
  | refuse h =>
      obtain ⟨count, rest, -, -, -, ⟨-, rfl⟩ | ⟨-, hwrite⟩⟩ := refuse_eq_some h
      · exact hwf
      · exact wellFormed_write hwf hparent htarget hwrite
  | stampPath hplain =>
      rw [hatomic] at hplain
      cases hplain
  | stampWork _ hdownload | cleanUp hdownload =>
      rw [hdirection] at hdownload
      cases hdownload
  | publish hphase h =>
      have hbytes : bytesAt t job.work = some (Resume.completed (job.kept o found) job.source) := by
        rw [hwork, ← htarget]
        obtain ⟨rfl, -⟩ | rfl := hphase
        · exact hprogress
        · exact hprogress.2
      exact wellFormed_publish hwf hparent hdirection hpath hwork (blocked_of_bytesAt hbytes) h
  | stampPublished _ h =>
      rw [hpath] at h
      exact wellFormed_stampAt hwf hparent h
  | abandon => exact absurd rfl habandon

end


namespace UploadProgress

/-- The directories that are yet to be seen or made. -/
def todo : UploadProgress → List (List String)
  | .looking todo => todo
  | .creating path todo => path :: todo
  | .transferring _ => []

def phase : UploadProgress → FilePhase
  | .looking _ | .creating _ _ => .waiting
  | .transferring phase => phase

end UploadProgress

namespace SyncRun

section

variable {run : SyncRun} {i j : run.Index} {t t' files files' : ServerFiles} {dir : List String}
  {progress progress' : UploadProgress} {s s' : run.State}

/-- What a request of an upload does, one case for each. -/
inductive Advanced (run : SyncRun) (i : run.Index) (t : ServerFiles) :
    UploadProgress → ServerFiles → UploadProgress → Prop
  | ready : Advanced run i t (.looking []) t (.transferring .waiting)
  | found {path : List String} {todo : List (List String)} (h : DirectoryAt IsDirectoryObject t path) :
      Advanced run i t (.looking (path :: todo)) t (.looking todo)
  | missing {path : List String} {todo : List (List String)} :
      Advanced run i t (.looking (path :: todo)) t (.creating path todo)
  | created {path : List String} {todo : List (List String)} {t' : ServerFiles}
      (h : createDir t path = .ok t') : Advanced run i t (.creating path todo) t' (.looking todo)
  | requested {phase phase' : FilePhase} {r : FileRequest} {t' : ServerFiles}
      (h : (run.job i).request run.options t phase r = some (t', phase')) :
      Advanced run i t (.transferring phase) t' (.transferring phase')

theorem advanced {r : UploadRequest} (h : run.advance i t progress r = some (t', progress')) :
    Advanced run i t progress t' progress' := by
  unfold advance at h
  split at h
  · cases h
    exact .ready
  · split at h
    · next hkind =>
      cases h
      exact .found (directoryAt_of_kind hkind)
    · cases h
    · cases h
    · cases h
      exact .missing
  · split at h
    · next hcreate =>
      cases h
      exact .created hcreate
    · cases h
  · obtain ⟨next, hnext, heq⟩ := Option.map_eq_some_iff.mp h
    cases heq
    exact .requested hnext
  · cases h

theorem Apart.lt_of_prefix (h : run.Apart) (hdir : dir <+: (run.job i).path.dropLast) :
    dir <+: (run.job i).path ∧ dir ≠ (run.job i).path := by
  obtain ⟨front, name, -, hpath, -, -⟩ := h.placed i
  rw [hpath, dropLast_concat] at hdir
  rw [hpath]
  refine ⟨hdir.trans (prefix_append _ _), ?_⟩
  rintro rfl
  have hlength := hdir.length_le
  rw [length_append, length_singleton] at hlength
  omega

/-- No upload changes what is above a destination. -/
theorem Apart.dir_ne (h : run.Apart) (hdir : dir <+: (run.job i).path) (hne : dir ≠ (run.job i).path)
    (j : run.Index) : dir ≠ (run.job j).path ∧ dir ≠ (run.job j).work := by
  by_cases hij : j = i
  · subst hij
    refine ⟨hne, ?_⟩
    rintro rfl
    obtain ⟨front, name, stage, hpath, hwork, -⟩ := h.placed j
    refine hne (hdir.eq_of_length ?_)
    rw [hpath, hwork, length_append, length_append]
    rfl
  · constructor
    · rintro rfl
      exact h.path j i hij hdir
    · rintro rfl
      exact h.work j i hij hdir

/-- How an upload goes on, depending on the server at the beginning. -/
structure UploadInv (run : SyncRun) (t : ServerFiles) (i : run.Index) (files : ServerFiles)
    (progress : UploadProgress) : Prop where
  way : ∀ dir, dir <+: (run.job i).path → dir ≠ (run.job i).path → ¬Blocked IsDirectoryObject files dir
  within : ∀ dir ∈ progress.todo, dir <+: (run.job i).path.dropLast
  made : ∀ dir, dir <+: (run.job i).path.dropLast →
    dir ∈ progress.todo ∨ DirectoryAt IsDirectoryObject files dir
  absent : progress.phase = .waiting → files.get? (run.job i).path = none
  work : (run.job i).WorkProgress run.options (t.get? (run.job i).work) files progress.phase
  path : (run.job i).PathProgress run.options (t.get? (run.job i).work) files progress.phase

structure Inv (run : SyncRun) (t : ServerFiles) (s : run.State) : Prop where
  wellFormed : WellFormed IsDirectoryObject s.files
  upload : ∀ i, run.UploadInv t i s.files (s.progress i)

/-- An upload does not care about other paths. -/
theorem UploadInv.frame (hatomic : run.options.atomic = true) (hapart : run.Apart)
    (h : run.UploadInv t i files progress)
    (hpath : files'.get? (run.job i).path = files.get? (run.job i).path)
    (hwork : files'.get? (run.job i).work = files.get? (run.job i).work)
    (hblocked : ∀ dir, dir <+: (run.job i).path → dir ≠ (run.job i).path →
      ¬Blocked IsDirectoryObject files dir → ¬Blocked IsDirectoryObject files' dir)
    (hdirectory : ∀ dir, dir <+: (run.job i).path → dir ≠ (run.job i).path →
      DirectoryAt IsDirectoryObject files dir → DirectoryAt IsDirectoryObject files' dir) :
    run.UploadInv t i files' progress where
  way dir hdir hne := hblocked dir hdir hne (h.way dir hdir hne)
  within := h.within
  made dir hdir := by
    obtain ⟨hunder, hne⟩ := hapart.lt_of_prefix hdir
    exact (h.made dir hdir).imp_right (hdirectory dir hunder hne)
  absent hwaiting := hpath.trans (h.absent hwaiting)
  work := h.work.congr (by rw [target, if_pos hatomic]; exact hwork)
  path := h.path.congr hpath hwork

theorem UploadInv.created (hatomic : run.options.atomic = true) (hapart : run.Apart)
    (hwf : WellFormed IsDirectoryObject files) (hdir : dir <+: (run.job j).path)
    (hne : dir ≠ (run.job j).path) (hcreate : createDir files dir = .ok files')
    (h : run.UploadInv t i files progress) : run.UploadInv t i files' progress := by
  obtain ⟨hpath, hwork⟩ := hapart.dir_ne hdir hne i
  have hmade : Restructured (fun _ ↦ True) files files' := .of_createDir hcreate trivial
  obtain ⟨_, _, -, -, -, hinsert⟩ := createDir_eq_ok hcreate
  refine h.frame hatomic hapart ?_ ?_ (fun dir _ _ ↦ hmade.not_blocked hwf)
    fun dir _ _ ↦ (directoryAt_of_createDir hcreate).2 dir
  · rw [hinsert, SortedMap.get?_insert_of_ne _ _ hpath.symm]
  · rw [hinsert, SortedMap.get?_insert_of_ne _ _ hwork.symm]

/-- The requests of one upload are none of another one's business. -/
theorem UploadInv.requested (h : run.UploadInv t i files progress)
    (hatomic : run.options.atomic = true) (hapart : run.Apart) (hij : i ≠ j)
    {phase phase' : FilePhase} {r : FileRequest} (hj : run.UploadInv t j files (.transferring phase))
    (hrequest : (run.job j).request run.options files phase r = some (files', phase')) :
    run.UploadInv t i files' progress := by
  have hframe : ∀ {q}, q ≠ (run.job j).path → q ≠ (run.job j).work → files'.get? q = files.get? q := by
    intro q hpath hwork
    refine request_frame hj.work hrequest hpath ?_
    rw [target, if_pos hatomic]
    exact hwork
  refine h.frame hatomic hapart (hframe ?_ ?_) (hframe ?_ ?_) (fun dir hdir hne hnot hblocked ↦ ?_)
    fun dir hdir hne hdirectory ↦ ?_
  · exact fun heq ↦ hapart.path i j hij (heq ▸ prefix_refl _)
  · exact fun heq ↦ hapart.work j i hij.symm (heq ▸ prefix_refl _)
  · exact fun heq ↦ hapart.work i j hij (heq ▸ prefix_refl _)
  · exact hapart.works i j hij
  · obtain ⟨hpath, hwork⟩ := hapart.dir_ne hdir hne j
    exact hnot (hblocked.congr (hframe hpath hwork))
  · obtain ⟨hpath, hwork⟩ := hapart.dir_ne hdir hne j
    exact hdirectory.congr (hframe hpath hwork)

theorem UploadInv.requests (hatomic : run.options.atomic = true) (hapart : run.Apart)
    {phase phase' : FilePhase} {r : FileRequest} (h : run.UploadInv t i files (.transferring phase))
    (hrequest : (run.job i).request run.options files phase r = some (files', phase')) :
    run.UploadInv t i files' (.transferring phase') := by
  have hframe : ∀ {dir}, dir <+: (run.job i).path → dir ≠ (run.job i).path →
      files'.get? dir = files.get? dir := by
    intro dir hdir hne
    obtain ⟨hpath, hwork⟩ := hapart.dir_ne hdir hne i
    refine request_frame h.work hrequest hpath ?_
    rw [target, if_pos hatomic]
    exact hwork
  obtain ⟨_, _, _, hpath, hwork, hstage⟩ := hapart.placed i
  have hne : (run.job i).work ≠ (run.job i).path := by
    rw [hpath, hwork]
    simpa using hstage
  refine ⟨fun dir hdir hdirne hblocked ↦ ?_, h.within, fun dir hdir ↦ .inr ?_,
    fun hwaiting ↦ absurd hwaiting (ne_waiting_of_request hrequest), request_work h.work hrequest,
    request_path hatomic hne h.work h.path hrequest⟩
  · exact h.way dir hdir hdirne (hblocked.congr (hframe hdir hdirne))
  · obtain ⟨hunder, hdirne⟩ := hapart.lt_of_prefix hdir
    have hmade := (h.made dir hdir).resolve_left not_mem_nil
    exact hmade.congr (hframe hunder hdirne)

/-- Each step of an upload keeps the invariant of all. -/
theorem Inv.step (hatomic : run.options.atomic = true) (hapart : run.Apart) (hinv : run.Inv t s)
    {e : run.Index × UploadRequest} (h : run.step s e = some s') : run.Inv t s' := by
  obtain ⟨i, r⟩ := e
  obtain ⟨⟨files, progress⟩, hadvance, rfl⟩ := Option.map_eq_some_iff.mp h
  have hi := hinv.upload i
  -- The others go on from where they are.
  have hall : WellFormed IsDirectoryObject files ∧ run.UploadInv t i files progress ∧
      ∀ j, j ≠ i → run.UploadInv t j files (s.progress j) := by
    replace hadvance := advanced hadvance
    generalize hprogress : s.progress i = before at hadvance hi
    cases hadvance with
    | ready =>
        exact ⟨hinv.wellFormed, ⟨hi.way, hi.within, hi.made, hi.absent, hi.work, hi.path⟩,
          fun j _ ↦ hinv.upload j⟩
    | found hdirectory =>
        refine ⟨hinv.wellFormed, ⟨hi.way, fun dir hdir ↦ hi.within dir (mem_cons_of_mem _ hdir),
          fun dir hdir ↦ ?_, hi.absent, hi.work, hi.path⟩, fun j _ ↦ hinv.upload j⟩
        rcases hi.made dir hdir with hmem | hmade
        · rcases mem_cons.mp hmem with rfl | hmem
          · exact .inr hdirectory
          · exact .inl hmem
        · exact .inr hmade
    | missing =>
        exact ⟨hinv.wellFormed, ⟨hi.way, hi.within, hi.made, hi.absent, hi.work, hi.path⟩,
          fun j _ ↦ hinv.upload j⟩
    | @created path todo _ hcreate =>
        obtain ⟨hunder, hne⟩ := hapart.lt_of_prefix (hi.within path mem_cons_self)
        have hothers := fun j ↦ (hinv.upload j).created hatomic hapart hinv.wellFormed hunder hne hcreate
        have hmade : Restructured (fun _ ↦ True) s.files files := .of_createDir hcreate trivial
        have hown := hi.created hatomic hapart hinv.wellFormed hunder hne hcreate
        refine ⟨hmade.wellFormed hinv.wellFormed, ⟨hown.way,
          fun dir hdir ↦ hown.within dir (mem_cons_of_mem _ hdir), fun dir hdir ↦ ?_, hown.absent,
          hown.work, hown.path⟩, fun j _ ↦ hothers j⟩
        rcases hown.made dir hdir with hmem | hmade
        · rcases mem_cons.mp hmem with rfl | hmem
          · exact .inr (directoryAt_of_createDir hcreate).1
          · exact .inl hmem
        · exact .inr hmade
    | requested hrequest =>
        obtain ⟨dir, _, _, hpath, hwork, -⟩ := hapart.placed i
        have hparent : DirectoryAt IsDirectoryObject s.files dir := by
          refine (hi.made dir ?_).resolve_left not_mem_nil
          rw [hpath, dropLast_concat]
        exact ⟨wellFormed_request hatomic rfl hpath hwork hinv.wellFormed hparent hi.work hrequest,
          hi.requests hatomic hapart hrequest,
          fun j hji ↦ (hinv.upload j).requested hatomic hapart hji hi hrequest⟩
  refine ⟨hall.1, fun j ↦ ?_⟩
  show run.UploadInv t j files (Function.update s.progress i progress j)
  by_cases hji : j = i
  · subst hji
    rw [Function.update_self]
    exact hall.2.1
  · rw [Function.update_of_ne hji]
    exact hall.2.2 j hji

variable {platform : Platform} {paths : PathResolution}

theorem Prepared.inv_start (h : run.Prepared platform paths t t') (hcompatible : run.Compatible) :
    run.Inv t' (run.start t') where
  wellFormed := wellFormed_of_applyStructure h.valid h.wellFormed h.applied
  upload i := by
    obtain ⟨hway, habsent⟩ := cleared h.valid h.wellFormed h.preflight h.applied (action_mem i)
    rw [← h.path_eq] at hway habsent
    have hparents : ∀ dir, dir ∈ run.parents i → dir <+: (run.job i).path.dropLast := fun dir hdir ↦
      (mem_inits _ _).mp (mem_of_mem_tail hdir)
    refine ⟨hway, hparents, fun dir hdir ↦ ?_, fun _ ↦ habsent (hcompatible.notAbove i), ?_, trivial⟩
    · have hinits : ∀ path : List String, path.inits = [] :: path.inits.tail := by
        intro path
        cases path <;> rfl
      have hmem := (mem_inits _ _).mpr hdir
      rw [hinits] at hmem
      rcases mem_cons.mp hmem with rfl | hmem
      · exact .inr .root
      · exact .inl hmem
    · show t'.get? ((run.job i).target run.options) = _
      rw [target, if_pos h.atomic]

theorem Inv.sound (h : run.Inv t s) (hatomic : run.options.atomic = true) (hapart : run.Apart) :
    run.Sound s := by
  intro i
  have hi := h.upload i
  generalize s.progress i = progress at hi
  have hfree (hphase : progress.todo = []) (habsent : s.files.get? (run.job i).path = none) :
      Free s.files (run.job i).path := by
    refine ⟨habsent, (hi.made _ (prefix_refl _)).resolve_left ?_⟩
    rw [hphase]
    exact not_mem_nil
  cases progress with
  | looking todo =>
      cases todo with
      | nil => trivial
      | cons path todo =>
          obtain ⟨hunder, hne⟩ := hapart.lt_of_prefix (hi.within path mem_cons_self)
          exact hi.way path hunder hne
  | creating => trivial
  | transferring phase =>
      cases phase with
      | waiting => exact hfree rfl (hi.absent rfl)
      | closed =>
          refine ⟨hfree rfl hi.path, ?_⟩
          have hwork : bytesAt s.files ((run.job i).target run.options) = some _ := hi.work
          rw [target, if_pos hatomic] at hwork
          obtain ⟨object, hobject, -⟩ := Option.bind_eq_some_iff.mp hwork
          have habsent : s.files.get? (run.job i).path = none := hi.path
          rw [publish, if_neg (not_not.mpr habsent), hobject]
          exact Option.some_ne_none _
      | inspected | writing | stamped | published | done | failed => trivial

/-- The preflight of an atomic synchronization is sound for a plan whose actions are compatible:
however its uploads are interleaved, each finds its destination free. -/
theorem atomic_sync_sound (h : run.Prepared platform paths t t') (hcompatible : run.Compatible)
    (hrun : Reaches run.step (fun _ _ ↦ True) (run.start t') s) : run.Sound s := by
  have hapart := h.apart hcompatible
  have hinv : run.Inv t' s := by
    refine hrun.invariant (h.inv_start hcompatible) ?_
    intro s e s' hinv _ hstep
    exact hinv.step h.atomic hapart hstep
  exact hinv.sound h.atomic hapart

end

/-! ## Plans that are not compatible -/

/-- A server on which a path leads nowhere else. -/
def plainPaths : PathResolution := ⟨fun _ path ↦ some path, fun _ _ _ ↦ rfl⟩

/-- A directory with a file and another directory. -/
def sampleSource : SyncSource where
  text := "local"
  lookup path :=
    if path = [] ∨ path = ["d"] then some ⟨.directory, none, none⟩
    else if path = ["a"] ∨ path = ["d", "b"] then some ⟨.regular [1], none, none⟩
    else none

def sampleNames : StagingNames := ⟨1, id, id, Function.injective_id⟩

def sampleRun (actions : List SyncAction) : SyncRun :=
  ⟨.default, sampleNames, sampleSource, "srv", ⟨actions, 0, 0, 0, 0⟩⟩

/-- A server with a file and the directory that is synchronized. -/
def sampleServer : ServerFiles :=
  SortedMap.empty.insert ["srv"] ⟨.directory, none, none⟩
    |>.insert ["srv", "a"] ⟨.regular [2], none, none⟩

theorem sampleServer_wellFormed : WellFormed IsDirectoryObject sampleServer :=
  wellFormed_of_keys (by decide)

/-- A file is removed and a directory is made, and a file is uploaded to either place. -/
def compatibleActions : List SyncAction :=
  [⟨.deleteRemoteFile, "a", 0⟩, ⟨.createRemoteDirectory, "d", 0⟩, ⟨.uploadFile, "a", 1⟩,
    ⟨.uploadFile, "d/b", 1⟩]

/-- A directory is made below a file that is uploaded. -/
def crossingActions : List SyncAction :=
  [⟨.deleteRemoteFile, "a", 0⟩, ⟨.createRemoteDirectory, "a/e", 0⟩, ⟨.uploadFile, "a", 1⟩]

/-- A file is uploaded twice. -/
def repeatedActions : List SyncAction :=
  [⟨.deleteRemoteFile, "a", 0⟩, ⟨.uploadFile, "a", 1⟩, ⟨.uploadFile, "a", 1⟩]

theorem atomic_sync_sound_sample : ∃ t',
    (sampleRun compatibleActions).Prepared .unix plainPaths sampleServer t' ∧
      ∀ s, Reaches (sampleRun compatibleActions).step (fun _ _ ↦ True)
        ((sampleRun compatibleActions).start t') s → (sampleRun compatibleActions).Sound s := by
  obtain ⟨t', hprepared⟩ : ∃ t',
      (sampleRun compatibleActions).Prepared .unix plainPaths sampleServer t' := by
    refine ⟨_, rfl, sampleServer_wellFormed, ?_, ?_, ?_, rfl⟩ <;> decide
  have hcompatible : (sampleRun compatibleActions).Compatible := by
    refine ⟨?_, ?_, ?_⟩
    · decide
    · decide
    · decide
  exact ⟨t', hprepared, fun s ↦ atomic_sync_sound hprepared hcompatible⟩

/-- The checks let a run pass in which an upload comes upon something. -/
def Unsound (run : SyncRun) : Prop :=
  ∃ t' s, run.Prepared .unix plainPaths sampleServer t' ∧
    Reaches run.step (fun _ _ ↦ True) (run.start t') s ∧ ¬run.Sound s

/-- An upload is about to begin, and something is at its destination. -/
def occupied (run : SyncRun) (i : run.Index) (s : run.State) : Bool :=
  match s.progress i with
  | .transferring .waiting => s.files.contains (run.job i).path
  | _ => false

/-- What comes of the actions before the uploads, and then of some requests of uploads. -/
def replay (run : SyncRun) (events : List (run.Index × UploadRequest)) : Option run.State :=
  match applyStructure plainPaths run.root run.plan sampleServer with
  | .ok t' => runEvents run.step (run.start t') events
  | .error _ => none
theorem unsound_of_replay {run : SyncRun} {i : run.Index} (events : List (run.Index × UploadRequest))
    (hatomic : run.options.atomic = true) (hvalid : validateSyncPlan .unix run.plan = .ok ())
    (hsources : run.source.preflightLocalSyncSources .unix run.plan = .ok ())
    (hpreflight : preflightAtomicSync sampleServer run.root run.plan = .ok ())
    (hreplay : (run.replay events).any (run.occupied i) = true) : Unsound run := by
  unfold replay at hreplay
  cases happlied : applyStructure plainPaths run.root run.plan sampleServer with
  | error e =>
      rw [happlied] at hreplay
      cases hreplay
  | ok t' =>
      rw [happlied] at hreplay
      obtain ⟨s, hevents, hoccupied⟩ := (Option.any_eq_true _ _).mp hreplay
      refine ⟨t', s, ⟨hatomic, sampleServer_wellFormed, hvalid, hsources, hpreflight, happlied⟩,
        Reaches.start.runEvents events hevents, fun hsound ↦ ?_⟩
      have hfinds := hsound i
      unfold occupied at hoccupied
      split at hoccupied
      · next hwaiting =>
        rw [hwaiting] at hfinds
        have hfree : s.files.get? (run.job i).path = none := hfinds.1
        rw [SortedMap.contains, hfree] at hoccupied
        cases hoccupied
      · cases hoccupied

theorem unsound_plans :
    Unsound (sampleRun crossingActions) ∧ Unsound (sampleRun repeatedActions) := by
  constructor
  · have hfirst : 0 < (sampleRun crossingActions).plan.uploads.length := by decide
    refine unsound_of_replay (i := ⟨0, hfirst⟩) [(⟨0, hfirst⟩, .look), (⟨0, hfirst⟩, .look)] rfl ?_ ?_ ?_ ?_
    all_goals decide +revert
  · have hfirst : 0 < (sampleRun repeatedActions).plan.uploads.length := by decide
    have hsecond : 1 < (sampleRun repeatedActions).plan.uploads.length := by decide
    refine unsound_of_replay (i := ⟨1, hsecond⟩) [(⟨0, hfirst⟩, .look), (⟨0, hfirst⟩, .look),
      (⟨0, hfirst⟩, .request .inspect), (⟨0, hfirst⟩, .request (.create none none)),
      (⟨0, hfirst⟩, .request (.send 1)), (⟨0, hfirst⟩, .request (.write none)),
      (⟨0, hfirst⟩, .request .close), (⟨0, hfirst⟩, .request .publish), (⟨1, hsecond⟩, .look), (⟨1, hsecond⟩, .look)] rfl ?_ ?_ ?_ ?_
    all_goals decide +revert

end SyncRun

end KaduoxSsh.Transfer
