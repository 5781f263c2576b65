import KaduoxSsh.Transfer.FreshTransfer

/-!
# What a failed transfer leaves

Up to the creation of the staging file a transfer changes nothing at its destination. From
then on it matters whether what follows an error removes the staging file: an upload never
does, and a download does unless it was told to make its file durable or to stamp it. An
error after the publication comes too late.
-/

namespace KaduoxSsh.Transfer

open SortedMap

namespace FreshTransfer

open Faulty

variable {P : Type} [LinearOrder P] {job : FreshTransfer P} {faults : Faults FailurePoint}
  {t : Files P}

/-! ## The conditions -/

def DirectoryIn (t : Files P) (p : P) : Prop :=
  ∃ object, t.get? p = some object ∧ object.kind = .directory

/-- A way by directories can be walked, some of which are made. -/
def Ready (faults : Faults FailurePoint) (stat create : Nat → FailurePoint) (t : Files P) :
    Nat → List (Result P) → Prop
  | _, [] => True
  | index, entry :: rest =>
      (∃ p, entry = .ok p ∧ faults (stat index) = none ∧
        (t.get? p = none ∧ faults (create index) = none ∨ DirectoryIn t p)) ∧
      Ready faults stat create t (index + 1) rest

/-- Nothing keeps a transfer from opening its files. -/
structure Prepares (job : FreshTransfer P) (faults : Faults FailurePoint) (t : Files P) : Prop where
  started : Quiet faults [.start, .statSource]
  source : ∃ object bytes, job.source = some object ∧ object.kind = .regular bytes
  parents : Ready faults .statParent .createParent t 0 job.parents
  looked : Quiet faults [.statDestination, .statStaging]
  path : t.get? job.path = none
  work : t.get? job.work = none

/-- A transfer gets so far that its staging file is there. -/
structure Begins (job : FreshTransfer P) (direction : TransferDirection)
    (faults : Faults FailurePoint) (t : Files P) : Prop where
  prepares : Prepares job faults t
  opened : direction = .download → faults .openSource = none
  created : faults .openStaging = none

/-- The steps of the copy. -/
def copyPoints : Nat → List Bytes → List FailurePoint
  | index, [] => [.cancel index, .read index]
  | index, _ :: rest => .cancel index :: .read index :: .write index :: copyPoints (index + 1) rest

/-- The looks at the directories before the publication. -/
def parentPoints : Nat → List (Result P) → List FailurePoint
  | _, [] => []
  | index, _ :: rest => .statParentAgain index :: parentPoints (index + 1) rest

variable (job) in
/-- The steps of an upload once its staging file is there. -/
def uploadPoints (metadata : Object) : List FailurePoint :=
  .openSource :: copyPoints 0 job.chunks ++ [.flush, .shutdown, .statDestinationAgain, .rename] ++
    if metadata.mtime.isSome || metadata.mode.isSome then [.stampDestination] else []

/-- The steps of a download between the copy and the publication. -/
def settlePoints (metadata : Object) : List FailurePoint :=
  [.flush, .sync] ++ if metadata.mtime.isSome then [.stampStaging] else []

variable (job) in
/-- The steps of a download up to the link of its destination. -/
def linkPoints : List FailurePoint :=
  parentPoints 0 job.parents ++ [.statStagingAgain, .linkTask, .link]

/-- Once the staging file is there, either all goes well or the first failure is one that is
followed by a removal, and the removal succeeds. -/
def Covered (job : FreshTransfer P) (faults : Faults FailurePoint) (metadata : Object) :
    TransferDirection → Prop
  | .upload => Quiet faults (job.uploadPoints metadata)
  | .download =>
      Quiet faults (copyPoints 0 job.chunks) ∧ Quiet faults (settlePoints metadata) ∧
          Quiet faults job.linkPoints ∧ faults .removeStaging = none ∨
        faults .abandon = none ∧ (¬Quiet faults (copyPoints 0 job.chunks) ∨
          Quiet faults (settlePoints metadata) ∧ ¬Quiet faults job.linkPoints)

/-- The failures of a transfer are all cleaned up after. -/
def CleansUp (job : FreshTransfer P) (direction : TransferDirection)
    (faults : Faults FailurePoint) (t : Files P) : Prop :=
  Begins job direction faults t →
    ∀ metadata, job.source = some metadata → Covered job faults metadata direction

/-! ## States of a transfer -/

/-- The destination and the staging file are as they were. -/
structure Untouched (job : FreshTransfer P) (t s : Files P) : Prop where
  path : s.get? job.path = t.get? job.path
  work : s.get? job.work = t.get? job.work

/-- The staging file is there, and the destination is not. -/
structure Begun (job : FreshTransfer P) (s : Files P) : Prop where
  path : s.get? job.path = none
  work : ∃ object bytes, s.get? job.work = some object ∧ object.kind = .regular bytes
  parents : ∀ entry ∈ job.parents, ∃ p, entry = .ok p ∧ DirectoryIn s p

theorem Begun.staging (h : Begun job t) : t.get? job.work ≠ none := by
  obtain ⟨object, -, hobject, -⟩ := h.work
  rw [hobject]
  exact Option.some_ne_none object

variable {object : Object}

theorem DirectoryIn.insert_of_ne {p q : P} (h : DirectoryIn t p) (hne : p ≠ q) :
    DirectoryIn (t.insert q object) p := by
  rw [DirectoryIn, get?_insert_of_ne _ _ hne]
  exact h

theorem Begun.append (h : Begun job t) (bytes : Bytes) : Begun job (job.append bytes t) := by
  obtain ⟨object, old, hobject, hkind⟩ := h.work
  rw [FreshTransfer.append, hobject]
  dsimp only
  rw [hkind]
  refine ⟨?_, ⟨_, old ++ bytes, get?_insert_self _ _ _, rfl⟩, fun entry hentry ↦ ?_⟩
  · rw [get?_insert_of_ne _ _ job.apart.symm]
    exact h.path
  · obtain ⟨p, rfl, hp⟩ := h.parents entry hentry
    exact ⟨p, rfl, hp.insert_of_ne (job.above p hentry).2⟩

/-! ## The walk by directories -/

section

variable {texts : DirectoryTexts P} {stat create : FailurePoint} {p : P} {K : Files P → Prop}

theorem runs_explained {α : Type} {text : Option String} {x : Filing P α} {pre : Files P → Prop}
    {quiet : Prop} {post : α → Files P → Prop} {broken : Files P → Prop}
    (h : Runs faults x pre quiet post broken) :
    Runs faults (explained text x) pre quiet post broken := by
  cases text with
  | none => exact h
  | some text => exact h.context

theorem runs_refuse {α : Type} {text : String} {pre : Files P → Prop}
    {post : α → Files P → Prop} : Runs faults (refuse text : Filing P α) pre False post pre :=
  Runs.throw fun _ ↦ id

theorem runs_checkCancelled {point : FailurePoint} :
    Runs faults (checkCancelled point) K (faults point = none) (fun _ ↦ K) K :=
  (Runs.pass fun _ ↦ id).tryCatch fun _ ↦ runs_refuse

/-- After a directory has been looked at it is there. -/
theorem runs_ensureDirectory (hK : ∀ s, K s → K (s.insert p ⟨.directory, none, none⟩)) :
    Runs faults (ensureDirectory texts stat create p) (fun s ↦ K s ∧ s.get? p = t.get? p)
      (faults stat = none ∧ (t.get? p = none ∧ faults create = none ∨ DirectoryIn t p))
      (fun _ s ↦ K s ∧ DirectoryIn s p) K := by
  have hlook : Runs faults (explained (texts.stat p) (Faulty.look stat fun s : Files P ↦ s.get? p))
      (fun s ↦ K s ∧ s.get? p = t.get? p) (faults stat = none)
      (fun found s ↦ found = t.get? p ∧ K s ∧ s.get? p = t.get? p) K :=
    runs_explained (Runs.look (fun s hs ↦ ⟨hs.2, hs⟩) fun s hs ↦ hs.1)
  refine hlook.bind_value fun _ ↦ ?_
  cases hfound : t.get? p with
  | none =>
      have hmake : Runs faults (Faulty.change create (createDirectory p))
          (fun s ↦ K s ∧ s.get? p = none) (faults create = none)
          (fun _ s ↦ K s ∧ DirectoryIn s p) K := by
        refine Runs.change (fun s hs ↦ ⟨s.insert p ⟨.directory, none, none⟩, if_pos hs.2, ?_⟩)
          fun s hs ↦ hs.1
        exact ⟨hK s hs.1, _, get?_insert_self _ _ _, rfl⟩
      refine (runs_explained hmake).congr ⟨fun h ↦ .inl ⟨rfl, h⟩, fun h ↦ ?_⟩
      rcases h with h | ⟨object, hobject, -⟩
      · exact h.2
      · rw [hfound] at hobject
        cases hobject
  | some object =>
      have hno : object.kind ≠ .directory →
          ¬(some object = none ∧ faults create = none ∨ DirectoryIn t p) := by
        rintro hkind (⟨h, -⟩ | ⟨other, hother, hdirectory⟩)
        · cases h
        · rw [hfound] at hother
          cases hother
          exact hkind hdirectory
      have hrefused : ∀ text, object.kind ≠ .directory →
          Runs faults (refuse text : Filing P Unit) (fun s ↦ K s ∧ s.get? p = some object)
            (some object = none ∧ faults create = none ∨ DirectoryIn t p)
            (fun _ s ↦ K s ∧ DirectoryIn s p) K := fun text hkind ↦
        (runs_refuse.mono (fun _ ↦ id) (fun _ _ ↦ id) fun s _ hs ↦ hs.1).congr
          ⟨False.elim, hno hkind⟩
      rw [Option.map_some]
      cases hkind : object.kind with
      | directory =>
          refine (Runs.pure fun s hs ↦ ⟨hs.1, object, hs.2, hkind⟩).congr ?_
          exact iff_of_true trivial (.inr ⟨object, hfound, hkind⟩)
      | symlink => exact hrefused _ (by rw [hkind]; exact Kind.noConfusion)
      | regular bytes => exact hrefused _ (by rw [hkind]; exact Kind.noConfusion)
      | other => exact hrefused _ (by rw [hkind]; exact Kind.noConfusion)

end

/-- After a walk every directory is there. -/
theorem runs_ensureDirectories {texts : DirectoryTexts P} {stat create : Nat → FailurePoint}
    {index : Nat} {rest : List (Result P)} {K : Files P → Prop} (hdistinct : rest.Nodup)
    (hK : ∀ s p, .ok p ∈ rest → K s → K (s.insert p ⟨.directory, none, none⟩)) :
    Runs faults (ensureDirectories texts stat create index rest)
      (fun s ↦ K s ∧ ∀ p, .ok p ∈ rest → s.get? p = t.get? p)
      (Ready faults stat create t index rest)
      (fun _ s ↦ K s ∧ ∀ entry ∈ rest, ∃ p, entry = .ok p ∧ DirectoryIn s p) K := by
  induction rest generalizing index K with
  | nil => exact Runs.pure fun s hs ↦ ⟨hs.1, nofun⟩
  | cons entry rest ih =>
      obtain ⟨hentry, hrest⟩ := List.nodup_cons.mp hdistinct
      cases entry with
      | error e =>
          refine ⟨fun s _ hq ↦ ?_, fun s hs _ ↦ ⟨e, s, rfl, hs.1⟩⟩
          obtain ⟨⟨p, hp, -⟩, -⟩ := hq
          cases hp
      | ok p =>
          have hne : ∀ {q}, .ok q ∈ rest → q ≠ p := fun hq heq ↦ hentry (heq ▸ hq)
          have hfirst : Runs faults (ensureDirectory texts (stat index) (create index) p)
              (fun s ↦ (K s ∧ ∀ q, .ok q ∈ rest → s.get? q = t.get? q) ∧ s.get? p = t.get? p)
              (faults (stat index) = none ∧
                (t.get? p = none ∧ faults (create index) = none ∨ DirectoryIn t p))
              (fun _ s ↦ (K s ∧ ∀ q, .ok q ∈ rest → s.get? q = t.get? q) ∧ DirectoryIn s p)
              fun s ↦ K s ∧ ∀ q, .ok q ∈ rest → s.get? q = t.get? q := by
            refine runs_ensureDirectory fun s hs ↦ ⟨hK s p List.mem_cons_self hs.1, fun q hq ↦ ?_⟩
            rw [get?_insert_of_ne _ _ (hne hq)]
            exact hs.2 q hq
          have hothers : Runs faults (ensureDirectories texts stat create (index + 1) rest)
              (fun s ↦ (K s ∧ DirectoryIn s p) ∧ ∀ q, .ok q ∈ rest → s.get? q = t.get? q)
              (Ready faults stat create t (index + 1) rest)
              (fun _ s ↦ (K s ∧ DirectoryIn s p) ∧ ∀ e ∈ rest, ∃ q, e = .ok q ∧ DirectoryIn s q)
              fun s ↦ K s ∧ DirectoryIn s p := by
            refine ih hrest fun s q hq hs ↦ ⟨hK s q (List.mem_cons_of_mem _ hq) hs.1, ?_⟩
            exact hs.2.insert_of_ne (hne hq).symm
          have hready : Ready faults stat create t index (.ok p :: rest) ↔
              (faults (stat index) = none ∧
                (t.get? p = none ∧ faults (create index) = none ∨ DirectoryIn t p)) ∧
              Ready faults stat create t (index + 1) rest := by
            refine and_congr_left' ⟨?_, fun h ↦ ⟨p, rfl, h⟩⟩
            rintro ⟨q, hq, h⟩
            cases hq
            exact h
          rw [hready]
          change Runs faults (ensureDirectory texts (stat index) (create index) p >>= fun _ ↦
            ensureDirectories texts stat create (index + 1) rest) _ _ _ _
          refine Runs.bind (hfirst.mono ?_ (fun _ _ ↦ id) fun s _ hs ↦ hs.1) fun _ _ ↦
            hothers.mono (fun s hs ↦ ⟨⟨hs.1.1, hs.2⟩, hs.1.2⟩) ?_ fun s _ hs ↦ hs.1
          · intro s hs
            exact ⟨⟨hs.1, fun q hq ↦ hs.2 q (List.mem_cons_of_mem _ hq)⟩, hs.2 p List.mem_cons_self⟩
          · intro _ s hs
            exact ⟨hs.1.1, List.forall_mem_cons.mpr ⟨⟨p, rfl, hs.1.2⟩, hs.2⟩⟩

/-! ## Up to the staging file -/

/-- A look at a destination finds nothing. -/
theorem runs_ensureDestinationAbsent {texts : Texts P} {point : FailurePoint}
    {pre : Files P → Prop} (hpre : ∀ s, pre s → s.get? job.path = t.get? job.path) :
    Runs faults (job.ensureDestinationAbsent texts point) pre
      (faults point = none ∧ t.get? job.path = none) (fun _ ↦ pre) pre := by
  have hlook : Runs faults (explained texts.statDestination
      (Faulty.look point fun s : Files P ↦ s.get? job.path)) pre (faults point = none)
      (fun found s ↦ found = t.get? job.path ∧ pre s) pre :=
    runs_explained (Runs.look (fun s hs ↦ ⟨hpre s hs, hs⟩) fun s ↦ id)
  refine hlook.bind_value fun _ ↦ ?_
  cases t.get? job.path with
  | none =>
      have hthere : Runs faults (return : Filing P Unit) pre True (fun _ ↦ pre) pre :=
        Runs.pure fun _ ↦ id
      exact hthere.congr (iff_of_true trivial rfl)
  | some object =>
      rw [Option.map_some]
      cases object.kind <;> exact runs_refuse.congr ⟨False.elim, fun h ↦ by cases h⟩

theorem Untouched.insert {s : Files P} (h : Untouched job t s) {p : P} (hpath : p ≠ job.path)
    (hwork : p ≠ job.work) : Untouched job t (s.insert p object) where
  path := (get?_insert_of_ne _ _ hpath.symm).trans h.path
  work := (get?_insert_of_ne _ _ hwork.symm).trans h.work

/-- The directories above the destination are not at its paths. -/
theorem runs_ensureParents {directories : DirectoryTexts P} :
    Runs faults (ensureDirectories directories .statParent .createParent 0 job.parents) (· = t)
      (Ready faults .statParent .createParent t 0 job.parents)
      (fun _ s ↦ Untouched job t s ∧ ∀ entry ∈ job.parents, ∃ p, entry = .ok p ∧ DirectoryIn s p)
      (Untouched job t) := by
  have hwalk : Runs faults (ensureDirectories directories .statParent .createParent 0 job.parents)
      (fun s ↦ Untouched job t s ∧ ∀ p, .ok p ∈ job.parents → s.get? p = t.get? p)
      (Ready faults .statParent .createParent t 0 job.parents)
      (fun _ s ↦ Untouched job t s ∧ ∀ entry ∈ job.parents, ∃ p, entry = .ok p ∧ DirectoryIn s p)
      (Untouched job t) := by
    refine runs_ensureDirectories job.distinct fun s p hp hs ↦ ?_
    exact hs.insert (job.above p hp).1 (job.above p hp).2
  refine hwalk.mono ?_ (fun _ _ ↦ id) fun _ _ ↦ id
  rintro s rfl
  exact ⟨⟨rfl, rfl⟩, fun _ _ ↦ rfl⟩

/-- The staging file must not be there. -/
theorem runs_stagingAbsent {texts : Texts P} {pre : Files P → Prop}
    (hpre : ∀ s, pre s → s.get? job.work = t.get? job.work) :
    Runs faults (do
      let staged ← explained texts.statStaging (Faulty.look .statStaging fun s ↦ s.get? job.work)
      if staged.isSome then refuse texts.stagingThere else return object) pre
      (faults .statStaging = none ∧ t.get? job.work = none) (fun a s ↦ a = object ∧ pre s) pre := by
  have hlook : Runs faults (explained texts.statStaging
      (Faulty.look .statStaging fun s : Files P ↦ s.get? job.work)) pre
      (faults .statStaging = none) (fun found s ↦ found = t.get? job.work ∧ pre s) pre :=
    runs_explained (Runs.look (fun s hs ↦ ⟨hpre s hs, hs⟩) fun s ↦ id)
  refine hlook.bind_value fun _ ↦ ?_
  cases t.get? job.work with
  | none =>
      have hfree : Runs faults (return object : Filing P Object) pre True
          (fun a s ↦ a = object ∧ pre s) pre := Runs.pure fun s hs ↦ ⟨rfl, hs⟩
      exact hfree.congr (iff_of_true trivial rfl)
  | some staged => exact runs_refuse.congr ⟨False.elim, fun h ↦ by cases h⟩

theorem prepares_iff : Prepares job faults t ↔
    faults .start = none ∧ faults .statSource = none ∧
      (∃ object bytes, job.source = some object ∧ object.kind = .regular bytes) ∧
      Ready faults .statParent .createParent t 0 job.parents ∧
      (faults .statDestination = none ∧ t.get? job.path = none) ∧
      faults .statStaging = none ∧ t.get? job.work = none := by
  constructor
  · rintro ⟨hstarted, hsource, hparents, hlooked, hpath, hwork⟩
    simp only [quiet_cons] at hstarted hlooked
    exact ⟨hstarted.1, hstarted.2.1, hsource, hparents, ⟨hlooked.1, hpath⟩, hlooked.2.1, hwork⟩
  · rintro ⟨hstart, hstat, hsource, hparents, ⟨hdestination, hpath⟩, hstaging, hwork⟩
    refine ⟨?_, hsource, hparents, ?_, hpath, hwork⟩
    · exact quiet_cons.mpr ⟨hstart, quiet_cons.mpr ⟨hstat, quiet_nil⟩⟩
    · exact quiet_cons.mpr ⟨hdestination, quiet_cons.mpr ⟨hstaging, quiet_nil⟩⟩

/-- What comes before anything is opened leaves the two paths as they were. -/
theorem runs_prepare {texts : Texts P} {directories : DirectoryTexts P} :
    Runs faults (job.prepare texts directories) (· = t) (Prepares job faults t)
      (fun object s ↦ job.source = some object ∧ Untouched job t s ∧
        ∀ entry ∈ job.parents, ∃ p, entry = .ok p ∧ DirectoryIn s p)
      (Untouched job t) := by
  rw [prepares_iff]
  have huntouched : ∀ s, s = t → Untouched job t s := by
    rintro s rfl
    exact ⟨rfl, rfl⟩
  have hstart : Runs faults (checkCancelled .start) (· = t) (faults .start = none)
      (fun _ ↦ (· = t)) (Untouched job t) :=
    runs_checkCancelled.mono (fun _ ↦ id) (fun _ _ ↦ id) fun s _ ↦ huntouched s
  have hstat : Runs faults ((Faulty.pass .statSource).context texts.statSource) (· = t)
      (faults .statSource = none) (fun _ ↦ (· = t)) (Untouched job t) :=
    (Runs.pass huntouched).context
  rw [prepare]
  refine hstart.bind fun _ _ ↦ hstat.bind fun _ _ ↦ ?_
  cases hsource : job.source with
  | none =>
      refine ⟨fun s _ hq ↦ ?_, fun s hs _ ↦ ⟨_, s, rfl, huntouched s hs⟩⟩
      obtain ⟨⟨_, _, hnone, -⟩, -⟩ := hq
      cases hnone
  | some object =>
      have hrefused : ∀ text, (∀ bytes, object.kind ≠ .regular bytes) →
          Runs faults (refuse text : Filing P Object) (· = t)
            ((∃ o bytes, some object = some o ∧ o.kind = .regular bytes) ∧
              Ready faults .statParent .createParent t 0 job.parents ∧
              (faults .statDestination = none ∧ t.get? job.path = none) ∧
              faults .statStaging = none ∧ t.get? job.work = none)
            (fun a s ↦ some object = some a ∧ Untouched job t s ∧
              ∀ entry ∈ job.parents, ∃ p, entry = .ok p ∧ DirectoryIn s p)
            (Untouched job t) := by
        intro text hkind
        refine (Runs.throw huntouched).congr ⟨False.elim, ?_⟩
        rintro ⟨⟨_, bytes, ⟨⟩, hregular⟩, -⟩
        exact hkind bytes hregular
      have hopen (f : Object → Filing P Object) :
          ((Faulty.ofResult (.ok object)).context texts.statSource >>= f) = f object := rfl
      dsimp only
      rw [hopen]
      cases hkind : object.kind with
      | symlink => exact hrefused _ fun bytes ↦ by rw [hkind]; exact Kind.noConfusion
      | directory => exact hrefused _ fun bytes ↦ by rw [hkind]; exact Kind.noConfusion
      | other => exact hrefused _ fun bytes ↦ by rw [hkind]; exact Kind.noConfusion
      | regular bytes =>
          have hlook : Runs faults (job.ensureDestinationAbsent texts .statDestination)
              (fun s ↦ Untouched job t s ∧
                ∀ entry ∈ job.parents, ∃ p, entry = .ok p ∧ DirectoryIn s p)
              (faults .statDestination = none ∧ t.get? job.path = none)
              (fun _ s ↦ Untouched job t s ∧
                ∀ entry ∈ job.parents, ∃ p, entry = .ok p ∧ DirectoryIn s p)
              (Untouched job t) :=
            (runs_ensureDestinationAbsent fun s hs ↦ hs.1.path).mono (fun _ ↦ id) (fun _ _ ↦ id)
              fun s _ hs ↦ hs.1
          refine (runs_ensureParents.bind fun _ _ ↦ hlook.bind fun _ _ ↦
            (runs_stagingAbsent fun s hs ↦ hs.1.work).mono (fun _ ↦ id)
              (fun a s hs ↦ ⟨congrArg some hs.1.symm, hs.2⟩) fun s _ hs ↦ hs.1).congr ?_
          exact (and_iff_right ⟨object, bytes, rfl, hkind⟩).symm

theorem runs_createStaging {texts : Texts P} (hpath : t.get? job.path = none)
    (hwork : t.get? job.work = none) :
    Runs faults (job.createStaging texts)
      (fun s ↦ Untouched job t s ∧ ∀ entry ∈ job.parents, ∃ p, entry = .ok p ∧ DirectoryIn s p)
      (faults .openStaging = none) (fun _ ↦ Begun job) (Untouched job t) := by
  refine (Runs.change (fun s hs ↦ ?_) fun s hs ↦ hs.1).context
  refine ⟨_, if_pos (hs.1.work.trans hwork), ?_, ?_, fun entry hentry ↦ ?_⟩
  · rw [get?_insert_of_ne _ _ job.apart.symm]
    exact hs.1.path.trans hpath
  · exact ⟨_, [], get?_insert_self _ _ _, rfl⟩
  · obtain ⟨p, rfl, hp⟩ := hs.2 entry hentry
    exact ⟨p, rfl, hp.insert_of_ne (job.above p hentry).2⟩

/-- The staging file is made for a source that is known. -/
theorem runs_create {texts : Texts P} {metadata : Object} (hpath : t.get? job.path = none)
    (hwork : t.get? job.work = none) :
    Runs faults (do
      job.createStaging texts
      return metadata)
      (fun s ↦ job.source = some metadata ∧ Untouched job t s ∧
        ∀ entry ∈ job.parents, ∃ p, entry = .ok p ∧ DirectoryIn s p)
      (faults .openStaging = none)
      (fun metadata s ↦ job.source = some metadata ∧ Begun job s) (Untouched job t) := by
  refine Runs.of_fact fun hsource ↦ ?_
  have hgiven : Runs faults (return metadata : Filing P Object) (Begun job) True
      (fun metadata s ↦ job.source = some metadata ∧ Begun job s) (Untouched job t) :=
    Runs.pure fun s hs ↦ ⟨hsource, hs⟩
  exact ((runs_createStaging hpath hwork).bind fun _ _ ↦ hgiven).congr (and_iff_left trivial)

theorem runs_beginUpload :
    Runs faults job.beginUpload (· = t) (Begins job .upload faults t)
      (fun metadata s ↦ job.source = some metadata ∧ Begun job s) (Untouched job t) := by
  refine (runs_prepare.bind fun h _ ↦ runs_create h.path h.work).congr ?_
  exact ⟨fun h ↦ ⟨h.1, nofun, h.2⟩, fun h ↦ ⟨h.prepares, h.created⟩⟩

theorem runs_beginDownload :
    Runs faults job.beginDownload (· = t) (Begins job .download faults t)
      (fun metadata s ↦ job.source = some metadata ∧ Begun job s) (Untouched job t) := by
  refine (runs_prepare.bind fun h _ ↦ (Runs.pass fun s hs ↦ hs.2.1).context.bind fun _ _ ↦
    runs_create h.path h.work).congr ?_
  exact ⟨fun h ↦ ⟨h.1, fun _ ↦ h.2.1, h.2.2⟩, fun h ↦ ⟨h.prepares, h.opened rfl, h.created⟩⟩

/-! ## The copy -/

theorem runs_copyWithProgress {index copied : Nat} {chunks : List Bytes} :
    Runs faults (job.copyWithProgress index copied chunks) (Begun job)
      (Quiet faults (copyPoints index chunks)) (fun _ ↦ Begun job) (Begun job) := by
  induction chunks generalizing index copied with
  | nil =>
      have hend : Runs faults (return copied : Filing P Nat) (Begun job) True
          (fun _ ↦ Begun job) (Begun job) := Runs.pure fun _ ↦ id
      refine (runs_checkCancelled.bind fun _ _ ↦ (Runs.pass fun _ ↦ id).bind fun _ _ ↦
        hend).congr ?_
      simp only [copyPoints, quiet_cons, quiet_nil]
  | cons chunk rest ih =>
      have hwrite : Runs faults (job.writeAll index chunk) (Begun job)
          (faults (.write index) = none) (fun _ ↦ Begun job) (Begun job) :=
        Runs.step (fun s hs ↦ ⟨(), _, rfl, hs.append chunk⟩) fun _ s hs ↦ hs.append _
      refine (runs_checkCancelled.bind fun _ _ ↦ (Runs.pass fun _ ↦ id).bind fun _ _ ↦
        hwrite.bind fun _ _ ↦ ih).congr ?_
      simp only [copyPoints, quiet_cons]

/-! ## After the copy -/

/-- Neither of the two paths is in use. -/
def Clean (job : FreshTransfer P) (s : Files P) : Prop :=
  s.get? job.path = none ∧ s.get? job.work = none

theorem Begun.not_clean (h : Begun job t) : ¬Clean job t := fun hclean ↦ h.staging hclean.2

theorem not_clean_of_published (h : t.get? job.path ≠ none) : ¬Clean job t :=
  fun hclean ↦ h hclean.1

theorem runs_setMetadata {point : FailurePoint} {p : P} {mtime mode : Option Nat} :
    Runs faults (Faulty.change point (setMetadata p mtime mode)) (fun s ↦ s.get? p ≠ none)
      (faults point = none) (fun _ s ↦ s.get? p ≠ none) fun s ↦ s.get? p ≠ none := by
  refine Runs.change (fun s hs ↦ ?_) fun _ ↦ id
  obtain ⟨object, hobject⟩ := Option.ne_none_iff_exists'.mp hs
  rw [setMetadata, hobject]
  refine ⟨_, rfl, ?_⟩
  rw [get?_insert_self]
  exact Option.some_ne_none _

theorem runs_finishRemoteAtomic :
    Runs faults job.finishRemoteAtomic (Begun job)
      (faults .statDestinationAgain = none ∧ faults .rename = none)
      (fun _ s ↦ s.get? job.path ≠ none) (Begun job) := by
  have habsent : Runs faults (job.ensureDestinationAbsent job.uploadTexts .statDestinationAgain)
      (Begun job) (faults .statDestinationAgain = none) (fun _ ↦ Begun job) (Begun job) :=
    (runs_ensureDestinationAbsent (t := empty) fun s hs ↦ hs.path).congr
      (and_iff_left rfl)
  refine habsent.bind fun _ _ ↦ (Runs.change (fun s hs ↦ ?_) fun _ ↦ id).tryCatch fun e ↦ ?_
  · obtain ⟨object, -, hobject, -⟩ := hs.work
    rw [renameStaging, hobject]
    refine ⟨_, if_pos hs.path, ?_⟩
    rw [get?_insert_self]
    exact Option.some_ne_none object
  · have hlook : Runs faults (Faulty.look .statOccupied fun s : Files P ↦ (s.get? job.path).isSome)
        (Begun job) (faults .statOccupied = none) (fun _ ↦ Begun job) (Begun job) :=
      Runs.look (fun _ ↦ id) fun _ ↦ id
    refine (hlook.bind fun _ occupied ↦ ?_).congr (and_iff_right_of_imp False.elim)
    split
    · exact runs_refuse
    · exact Runs.throw fun _ ↦ id

/-- Whatever fails in an upload after its staging file is there, something is left. -/
theorem runs_completeUpload {metadata : Object} :
    Runs faults (job.completeUpload metadata) (Begun job)
      (Quiet faults (job.uploadPoints metadata)) (fun _ _ ↦ True) fun s ↦ ¬Clean job s := by
  have hpass : ∀ point, Runs faults (Faulty.pass point) (Begun job) (faults point = none)
      (fun _ ↦ Begun job) fun s ↦ ¬Clean job s :=
    fun point ↦ Runs.pass fun _ hs ↦ hs.not_clean
  have hcopy : Runs faults (job.copyWithProgress 0 0 job.chunks) (Begun job)
      (Quiet faults (copyPoints 0 job.chunks)) (fun _ ↦ Begun job) fun s ↦ ¬Clean job s :=
    runs_copyWithProgress.mono (fun _ ↦ id) (fun _ _ ↦ id) fun _ _ hs ↦ hs.not_clean
  have hfinish : Runs faults job.finishRemoteAtomic (Begun job)
      (faults .statDestinationAgain = none ∧ faults .rename = none)
      (fun _ s ↦ s.get? job.path ≠ none) fun s ↦ ¬Clean job s :=
    runs_finishRemoteAtomic.mono (fun _ ↦ id) (fun _ _ ↦ id) fun _ _ hs ↦ hs.not_clean
  have hstamp : Runs faults (job.preserveRemoteMtime metadata) (fun s ↦ s.get? job.path ≠ none)
      (Quiet faults (if metadata.mtime.isSome || metadata.mode.isSome then [.stampDestination]
        else [])) (fun _ _ ↦ True) fun s ↦ ¬Clean job s := by
    rw [preserveRemoteMtime]
    split
    · refine (runs_setMetadata.mono (fun _ ↦ id) (fun _ _ _ ↦ trivial) fun _ _ ↦
        not_clean_of_published).congr ?_
      rw [quiet_cons, and_iff_left quiet_nil]
    · exact (Runs.pure fun _ _ ↦ trivial).congr (iff_of_true trivial quiet_nil)
  refine ((hpass .openSource).context.bind fun _ _ ↦ hcopy.bind fun _ copied ↦
    (hpass .flush).bind fun _ _ ↦ (hpass .shutdown).bind fun _ _ ↦ hfinish.bind fun _ _ ↦
      hstamp.bind fun _ _ ↦ Runs.pure fun _ ↦ id).congr ?_
  simp only [uploadPoints, List.cons_append, quiet_cons, quiet_append, quiet_nil, and_true,
    and_assoc]

/-! ## The publication of a download -/

/-- A walk by directories that are there takes their looks only. -/
theorem ready_iff_quiet {index : Nat} {rest : List (Result P)}
    (h : ∀ entry ∈ rest, ∃ p, entry = .ok p ∧ DirectoryIn t p) :
    Ready faults .statParentAgain .createParentAgain t index rest ↔
      Quiet faults (parentPoints index rest) := by
  induction rest generalizing index with
  | nil => exact iff_of_true trivial quiet_nil
  | cons entry rest ih =>
      obtain ⟨⟨p, rfl, hp⟩, hrest⟩ := List.forall_mem_cons.mp h
      rw [Ready, parentPoints, quiet_cons, ih hrest]
      refine and_congr_left' ⟨fun hready ↦ ?_, fun hlook ↦ ⟨p, rfl, hlook, .inr hp⟩⟩
      obtain ⟨-, -, hlook, -⟩ := hready
      exact hlook

theorem runs_ensureParentsAgain {texts : DirectoryTexts P} :
    Runs faults (ensureDirectories texts .statParentAgain .createParentAgain 0 job.parents)
      (Begun job) (Quiet faults (parentPoints 0 job.parents)) (fun _ ↦ Begun job) (Begun job) := by
  refine Runs.of_each fun t ht ↦ ?_
  have hwalk : Runs faults
      (ensureDirectories texts .statParentAgain .createParentAgain 0 job.parents)
      (fun s ↦ Begun job s ∧ ∀ p, .ok p ∈ job.parents → s.get? p = t.get? p)
      (Ready faults .statParentAgain .createParentAgain t 0 job.parents)
      (fun _ s ↦ Begun job s ∧ ∀ entry ∈ job.parents, ∃ p, entry = .ok p ∧ DirectoryIn s p)
      (Begun job) := by
    refine runs_ensureDirectories job.distinct fun s p hp hs ↦ ⟨?_, ?_, fun entry hentry ↦ ?_⟩
    · rw [get?_insert_of_ne _ _ (job.above p hp).1.symm]
      exact hs.path
    · rw [get?_insert_of_ne _ _ (job.above p hp).2.symm]
      exact hs.work
    · obtain ⟨q, rfl, hq⟩ := hs.parents entry hentry
      by_cases heq : q = p
      · subst heq
        exact ⟨q, rfl, _, get?_insert_self _ _ _, rfl⟩
      · exact ⟨q, rfl, hq.insert_of_ne heq⟩
  refine (hwalk.mono ?_ (fun _ _ hs ↦ hs.1) fun _ _ ↦ id).congr (ready_iff_quiet ht.parents)
  rintro s rfl
  exact ⟨ht, fun _ _ ↦ rfl⟩

/-- The destination is there, and the staging file still is. -/
structure Linked (job : FreshTransfer P) (s : Files P) : Prop where
  path : s.get? job.path ≠ none
  work : s.get? job.work ≠ none

theorem runs_publishLink :
    Runs faults job.publishLink (Begun job) (faults .link = none) (fun _ ↦ Linked job)
      (Begun job) := by
  refine (Runs.change (fun s hs ↦ ?_) fun _ ↦ id).tryCatch fun e ↦ ?_
  · obtain ⟨object, -, hobject, -⟩ := hs.work
    rw [hardLink, hobject]
    refine ⟨_, if_pos hs.path, ?_, ?_⟩
    · rw [get?_insert_self]
      exact Option.some_ne_none object
    · rw [get?_insert_of_ne _ _ job.apart, hobject]
      exact Option.some_ne_none object
  · split
    · exact runs_refuse
    · exact Runs.throw fun _ ↦ id

theorem runs_linkDestination :
    Runs faults job.linkDestination (Begun job) (Quiet faults job.linkPoints)
      (fun _ ↦ Linked job) (Begun job) := by
  have hlook : Runs faults ((Faulty.look .statStagingAgain fun s ↦ s.get? job.work).context
      s!"failed to inspect atomic download staging {job.text job.work}") (Begun job)
      (faults .statStagingAgain = none)
      (fun staging s ↦
        (∃ object bytes, staging = some object ∧ object.kind = .regular bytes) ∧ Begun job s)
      (Begun job) := (Runs.look (fun _ hs ↦ ⟨hs.work, hs⟩) fun _ ↦ id).context
  have hlink : Runs faults ((Faulty.pass .linkTask).context "atomic download hard-link task failed"
      >>= fun _ ↦ job.publishLink) (Begun job) (faults .linkTask = none ∧ faults .link = none)
      (fun _ ↦ Linked job) (Begun job) :=
    (Runs.pass fun _ ↦ id).context.bind fun _ _ ↦ runs_publishLink
  have hquiet : Quiet faults (parentPoints 0 job.parents) ∧ faults .statStagingAgain = none ∧
      faults .linkTask = none ∧ faults .link = none ↔ Quiet faults job.linkPoints := by
    simp only [linkPoints, quiet_append, quiet_cons, quiet_nil, and_true]
  refine Runs.congr (runs_ensureParentsAgain.bind fun _ _ ↦ hlook.bind fun _ staging ↦
    Runs.of_fact fun hstaging ↦ ?_) hquiet
  obtain ⟨object, bytes, rfl, hkind⟩ := hstaging
  rw [Option.map_some, hkind]
  exact hlink

/-- An error before the link leaves the staging file, and one after it leaves both. -/
theorem runs_finishLocalAtomic :
    Runs faults job.finishLocalAtomic (Begun job)
      (Quiet faults job.linkPoints ∧ faults .removeStaging = none) (fun _ _ ↦ True)
      fun s ↦ ¬Quiet faults job.linkPoints ∧ Begun job s ∨
        Quiet faults job.linkPoints ∧ Linked job s := by
  refine Runs.bind (runs_linkDestination.mono (fun _ ↦ id) (fun _ _ ↦ id)
    fun s hq hs ↦ .inl ⟨hq, hs⟩) fun hq _ ↦ ?_
  have hremove : Runs faults (Faulty.change .removeStaging job.removeFile) (Linked job)
      (faults .removeStaging = none) (fun _ _ ↦ True) (Linked job) :=
    Runs.change (fun s hs ↦ ⟨_, if_neg hs.work, trivial⟩) fun _ ↦ id
  exact hremove.tryCatch fun _ ↦ Runs.throw fun s hs ↦ .inr ⟨hq, hs⟩

/-- The removal leaves nothing, unless the destination is there. -/
theorem runs_abandon {published : Prop} :
    Runs faults job.abandon (fun s ↦ ¬published ∧ Begun job s ∨ published ∧ Linked job s)
      (faults .abandon = none)
      (fun _ s ↦ ¬published ∧ Clean job s ∨ published ∧ s.get? job.path ≠ none)
      fun s ↦ ¬published ∧ Begun job s ∨ published ∧ Linked job s := by
  refine Runs.change (fun s hs ↦ ⟨s.erase job.work, if_neg ?_, ?_⟩) fun _ ↦ id
  · rcases hs with ⟨-, hs⟩ | ⟨-, hs⟩
    · exact hs.staging
    · exact hs.work
  · refine hs.imp (And.imp_right fun hs ↦ ⟨?_, ?_⟩) (And.imp_right fun hs ↦ ?_)
    · rw [get?_erase, if_neg job.apart.symm]
      exact hs.path
    · rw [get?_erase, if_pos rfl]
    · rw [get?_erase, if_neg job.apart.symm]
      exact hs.path

/-- A failed copy is cleaned up after. -/
theorem runs_copyOrAbandon :
    Runs faults ((job.copyWithProgress 0 0 job.chunks).cleaningUp job.abandon) (Begun job)
      (Quiet faults (copyPoints 0 job.chunks)) (fun _ ↦ Begun job)
      fun s ↦ faults .abandon = none ∧ Clean job s ∨ ¬faults .abandon = none ∧ Begun job s := by
  refine runs_copyWithProgress.cleaningUp ?_
  have habandon : Runs faults job.abandon (fun s ↦ ¬False ∧ Begun job s ∨ False ∧ Linked job s)
      _ _ _ := runs_abandon
  refine habandon.mono (fun _ hs ↦ .inl ⟨id, hs⟩) ?_ ?_
  · exact fun _ _ hs ↦ (hs.resolve_right fun h ↦ h.1).2
  · exact fun _ _ hs ↦ (hs.resolve_right fun h ↦ h.1).2

theorem runs_preserveLocalMtime {metadata : Object} :
    Runs faults (job.preserveLocalMtime metadata) (Begun job)
      (Quiet faults (if metadata.mtime.isSome then [.stampStaging] else []))
      (fun _ ↦ Begun job) (Begun job) := by
  rw [preserveLocalMtime]
  split
  · have hstamp : Runs faults
        (Faulty.change .stampStaging (setMetadata job.work metadata.mtime none)) (Begun job)
        (faults .stampStaging = none) (fun _ ↦ Begun job) (Begun job) := by
      refine Runs.change (fun s hs ↦ ?_) fun _ ↦ id
      obtain ⟨object, bytes, hobject, hkind⟩ := hs.work
      rw [setMetadata, hobject]
      refine ⟨_, rfl, ?_, ⟨_, bytes, get?_insert_self _ _ _, hkind⟩, ?_⟩
      · rw [get?_insert_of_ne _ _ job.apart.symm]
        exact hs.path
      · intro entry hentry
        obtain ⟨p, rfl, hp⟩ := hs.parents entry hentry
        exact ⟨p, rfl, hp.insert_of_ne (job.above p hentry).2⟩
    exact hstamp.congr (by rw [quiet_cons, and_iff_left quiet_nil])
  · have hnothing : Runs faults (return : Filing P Unit) (Begun job) True (fun _ ↦ Begun job)
        (Begun job) := Runs.pure fun _ ↦ id
    exact hnothing.congr (iff_of_true trivial quiet_nil)

/-- A download cleans up after the failures that are covered, and after no others. -/
theorem runs_completeDownload {metadata : Object} :
    Runs faults (job.completeDownload metadata) (Begun job)
      (Quiet faults (copyPoints 0 job.chunks) ∧ Quiet faults (settlePoints metadata) ∧
        Quiet faults job.linkPoints ∧ faults .removeStaging = none)
      (fun _ _ ↦ True) fun s ↦ Covered job faults metadata .download ↔ Clean job s := by
  have hcopy : Runs faults ((job.copyWithProgress 0 0 job.chunks).cleaningUp job.abandon)
      (Begun job) (Quiet faults (copyPoints 0 job.chunks)) (fun _ ↦ Begun job)
      fun s ↦ Covered job faults metadata .download ↔ Clean job s := by
    refine runs_copyOrAbandon.mono (fun _ ↦ id) (fun _ _ ↦ id) ?_
    rintro s hq (⟨hremove, hs⟩ | ⟨hremove, hs⟩)
    · exact iff_of_true (.inr ⟨hremove, .inl hq⟩) hs
    · refine iff_of_false ?_ hs.not_clean
      rintro (⟨hcopied, -⟩ | ⟨hremove', -⟩)
      · exact hq hcopied
      · exact hremove hremove'
  -- Nothing is removed when the file cannot be made durable or stamped.
  have hsettling : ∀ {s}, Quiet faults (copyPoints 0 job.chunks) →
      ¬Quiet faults (settlePoints metadata) → Begun job s →
      (Covered job faults metadata .download ↔ Clean job s) := by
    intro s hcopied hq hs
    refine iff_of_false ?_ hs.not_clean
    rintro (⟨-, hsettled, -⟩ | ⟨-, hfailed | ⟨hsettled, -⟩⟩)
    · exact hq hsettled
    · exact hfailed hcopied
    · exact hq hsettled
  have hpublish : Quiet faults (copyPoints 0 job.chunks) → Quiet faults (settlePoints metadata) →
      Runs faults (job.finishLocalAtomic.cleaningUp job.abandon) (Begun job)
        (Quiet faults job.linkPoints ∧ faults .removeStaging = none) (fun _ _ ↦ True)
        fun s ↦ Covered job faults metadata .download ↔ Clean job s := by
    intro hcopied hsettled
    refine (runs_finishLocalAtomic.cleaningUp runs_abandon).mono (fun _ ↦ id) (fun _ _ ↦ id) ?_
    have hcovered : Covered job faults metadata .download ↔
        Quiet faults job.linkPoints ∧ faults .removeStaging = none ∨
          faults .abandon = none ∧ ¬Quiet faults job.linkPoints := by
      rw [Covered, and_iff_right hcopied, and_iff_right hsettled,
        or_iff_right (not_not_intro hcopied), and_iff_right hsettled]
    intro s hq hs
    rw [hcovered]
    have hnone : ¬(Quiet faults job.linkPoints ∧ faults .removeStaging = none) := hq
    rw [or_iff_right hnone]
    rcases hs with ⟨hremove, ⟨hlink, hs⟩ | ⟨hlink, hs⟩⟩ | ⟨hremove, ⟨hlink, hs⟩ | ⟨hlink, hs⟩⟩
    · exact iff_of_true ⟨hremove, hlink⟩ hs
    · exact iff_of_false (fun h ↦ h.2 hlink) (not_clean_of_published hs)
    · exact iff_of_false (fun h ↦ hremove h.1) hs.not_clean
    · exact iff_of_false (fun h ↦ hremove h.1) (not_clean_of_published hs.path)
  have hpass : Quiet faults (copyPoints 0 job.chunks) → ∀ point ∈ settlePoints metadata,
      Runs faults (Faulty.pass point) (Begun job) (faults point = none) (fun _ ↦ Begun job)
        fun s ↦ Covered job faults metadata .download ↔ Clean job s := by
    intro hcopied point hpoint
    refine Runs.mono (Runs.pass fun _ ↦ id) (fun _ ↦ id) (fun _ _ ↦ id) fun s hq hs ↦ ?_
    exact hsettling hcopied (fun hquiet ↦ hq (hquiet point hpoint)) hs
  have hstamp : Quiet faults (copyPoints 0 job.chunks) →
      Runs faults (job.preserveLocalMtime metadata) (Begun job)
        (Quiet faults (if metadata.mtime.isSome then [.stampStaging] else []))
        (fun _ ↦ Begun job) fun s ↦ Covered job faults metadata .download ↔ Clean job s := by
    intro hcopied
    refine runs_preserveLocalMtime.mono (fun _ ↦ id) (fun _ _ ↦ id) fun s hq hs ↦ ?_
    exact hsettling hcopied (fun hquiet ↦ hq (quiet_append.mp hquiet).2) hs
  have hquiet : ∀ {rest : Prop}, (Quiet faults (settlePoints metadata) ∧ rest) ↔
      faults .flush = none ∧ faults .sync = none ∧
        Quiet faults (if metadata.mtime.isSome then [.stampStaging] else []) ∧ rest := by
    intro rest
    simp only [settlePoints, quiet_append, quiet_cons, quiet_nil, and_true, and_assoc]
  rw [hquiet]
  refine hcopy.bind fun hcopied copied ↦ (hpass hcopied .flush (by simp [settlePoints])).bind
    fun hflush _ ↦ (hpass hcopied .sync (by simp [settlePoints])).bind fun hsync _ ↦
      (hstamp hcopied).bind fun hstamped _ ↦ ?_
  have hsettled : Quiet faults (settlePoints metadata) :=
    (hquiet.mpr ⟨hflush, hsync, hstamped, trivial⟩).1
  refine ((hpublish hcopied hsettled).bind fun _ _ ↦ Runs.pure fun _ ↦ id).congr ?_
  exact and_iff_left trivial

/-! ## Transfers as a whole -/

/-- The destination is as it was, and no staging file is left that was not there. -/
def LeavesNothing (job : FreshTransfer P) (t t' : Files P) : Prop :=
  t'.get? job.path = t.get? job.path ∧ (t.get? job.work = none → t'.get? job.work = none)

theorem Untouched.leavesNothing {s : Files P} (h : Untouched job t s) : LeavesNothing job t s :=
  ⟨h.path, fun hwork ↦ h.work.trans hwork⟩

/-- What is left after an error is decided by how the two halves of a transfer end. -/
theorem leavesNothing_iff {start : Filing P Object} {rest : Object → Filing P Nat}
    {begins : Prop} {quiet covered : Object → Prop} (habsent : begins → Clean job t)
    (hstart : Runs faults start (· = t) begins
      (fun metadata s ↦ job.source = some metadata ∧ Begun job s) (Untouched job t))
    (hrest : ∀ metadata, Runs faults (rest metadata) (Begun job) (quiet metadata) (fun _ _ ↦ True)
      fun s ↦ covered metadata ↔ Clean job s)
    (hquiet : ∀ metadata, quiet metadata → covered metadata) :
    (∀ e t', (start >>= rest) faults t = (.error e, t') → LeavesNothing job t t') ↔
      (begins → ∀ metadata, job.source = some metadata → covered metadata) := by
  by_cases hbegins : begins
  · obtain ⟨metadata, s, hrun, hsource, hs⟩ := hstart.ok t rfl hbegins
    have honly : (begins → ∀ other, job.source = some other → covered other) ↔
        covered metadata := by
      refine ⟨fun h ↦ h hbegins metadata hsource, fun h _ other hother ↦ ?_⟩
      rw [hsource] at hother
      cases hother
      exact h
    rw [honly, bind_of_ok hrun]
    by_cases hq : quiet metadata
    · obtain ⟨copied, s', hrun', -⟩ := (hrest metadata).ok s hs hq
      refine iff_of_true (fun e t' h ↦ ?_) (hquiet metadata hq)
      rw [hrun'] at h
      cases h
    · obtain ⟨e, s', hrun', hs'⟩ := (hrest metadata).error s hs hq
      rw [hs']
      constructor
      · intro h
        obtain ⟨hpath, hwork⟩ := h e s' hrun'
        exact ⟨hpath.trans (habsent hbegins).1, hwork (habsent hbegins).2⟩
      · intro hclean e' t' h
        rw [hrun'] at h
        cases h
        exact ⟨hclean.1.trans (habsent hbegins).1.symm, fun _ ↦ hclean.2⟩
  · obtain ⟨e, s, hrun, hs⟩ := hstart.error t rfl hbegins
    refine iff_of_true (fun e' t' h ↦ ?_) fun h ↦ absurd h hbegins
    rw [bind_of_error hrun] at h
    cases h
    exact hs.leavesNothing

/-- A failed transfer leaves nothing behind exactly when its failures are cleaned up after. -/
theorem transferFileAtomic_leavesNothing (job : FreshTransfer P) (direction : TransferDirection)
    (faults : Faults FailurePoint) (t : Files P) :
    (∀ e t', job.transferFileAtomic direction faults t = (.error e, t') →
      LeavesNothing job t t') ↔ CleansUp job direction faults t := by
  cases direction with
  | upload =>
      have hrest : ∀ metadata, Runs faults (job.completeUpload metadata) (Begun job)
          (Quiet faults (job.uploadPoints metadata)) (fun _ _ ↦ True)
          fun s ↦ Covered job faults metadata .upload ↔ Clean job s := fun metadata ↦
        runs_completeUpload.mono (fun _ ↦ id) (fun _ _ ↦ id) fun _ hq hs ↦ iff_of_false hq hs
      exact leavesNothing_iff (fun h ↦ ⟨h.prepares.path, h.prepares.work⟩) runs_beginUpload hrest
        fun _ ↦ id
  | download =>
      exact leavesNothing_iff (fun h ↦ ⟨h.prepares.path, h.prepares.work⟩) runs_beginDownload
        (fun _ ↦ runs_completeDownload) fun _ ↦ .inl

/-- One byte is to be written. -/
def oneByte : FreshTransfer Nat where
  path := 0
  work := 1
  parents := []
  source := some ⟨.regular [7], none, none⟩
  chunks := [[7]]
  now := none
  mode := none
  text p := s!"{p}"
  sourceText := "source"
  apart := Nat.one_ne_zero
  above := nofun
  distinct := List.nodup_nil
  sized := by decide

/-- A write is refused by the server. -/
def refusedWrite : Faults FailurePoint := fun point ↦
  if point = .write 0 then some ⟨⟨[⟨"Failure", none⟩]⟩, 0⟩ else none

/-- The staging file of an upload whose write fails stays. -/
theorem upload_leaves_staging :
    ¬∀ (job : FreshTransfer Nat) (direction : TransferDirection) (faults : Faults FailurePoint)
      (t t' : Files Nat) (e : AnyError),
      job.transferFileAtomic direction faults t = (.error e, t') → LeavesNothing job t t' := by
  intro h
  have hleft := (h oneByte .upload refusedWrite empty _ _ rfl).2 rfl
  exact Option.some_ne_none _ hleft

end FreshTransfer

end KaduoxSsh.Transfer
