import KaduoxSsh.Transfer.TreeDownload

/-!
# What the two recursive downloads make

Both walks do the same with an entry that they take over. So each is a fold over the
steps of the directories that it comes to, and it comes to its end exactly when it finds
nothing to refuse there.
-/

namespace KaduoxSsh.Transfer

open Worklist DirTree Result List

/-! ## The steps of a listing -/

/-- What is done with an entry that is not refused. -/
inductive ListingStep where
  | skip
  | fetch (name : String) (node : Node Bytes)

def fetchOf : ListingStep → Option (String × Node Bytes)
  | .skip => none
  | .fetch name node => some (name, node)

def atomicStep (e : String × Node (Leaf Bytes)) : Option ListingStep :=
  match fetchable e.2 with
  | none => some .skip
  | some node => if isDotName e.1 then none else some (.fetch e.1 node)

def atomicSteps (listing : RemoteListing) : List ListingStep := listing.filterMap atomicStep

/-- The steps of the transfer engine, when it has seen some names. -/
def plainSteps (normalize : String → String) : List String → RemoteListing → List ListingStep
  | _, [] => []
  | seen, e :: rest =>
      match atomicStep e with
      | none => plainSteps normalize seen rest
      | some .skip => .skip :: plainSteps normalize seen rest
      | some (.fetch name node) =>
          if normalize name ∈ seen then .skip :: plainSteps normalize seen rest
          else .fetch name node :: plainSteps normalize (normalize name :: seen) rest

variable {normalize : String → String} {listing : RemoteListing} {e : String × Node (Leaf Bytes)}
  {seen : List String} {name : String} {node : Node Bytes} {dir : List String}

theorem candidates_cons : candidates (e :: listing) =
    ((atomicStep e).bind fetchOf).toList ++ candidates listing := by
  rw [candidates, candidates, filterMap_cons]
  unfold atomicStep
  cases fetchable e.2 with
  | none => simp [fetchOf]
  | some node => by_cases hdot : isDotName e.1 <;> simp [hdot, fetchOf]

theorem fetches_atomicSteps : (atomicSteps listing).filterMap fetchOf = candidates listing := by
  induction listing with
  | nil => rfl
  | cons e rest ih =>
      rw [candidates_cons, ← ih, atomicSteps, atomicSteps, filterMap_cons]
      cases hstep : atomicStep e with
      | none => rfl
      | some step => cases step <;> rfl

/-- The transfer engine takes the first entry with a normalised name. -/
theorem mem_fetches_plainSteps :
    (name, node) ∈ (plainSteps normalize seen listing).filterMap fetchOf ↔
      normalize name ∉ seen ∧
        (candidates listing).find? (fun e ↦ normalize e.1 = normalize name) = some (name, node) := by
  induction listing generalizing seen with
  | nil => simp [plainSteps, candidates]
  | cons e rest ih =>
      rw [candidates_cons, plainSteps]
      cases hstep : atomicStep e with
      | none => simpa [fetchOf] using ih
      | some step =>
          cases step with
          | skip => simpa [fetchOf] using ih
          | fetch name' node' =>
              dsimp only
              by_cases hseen : normalize name' ∈ seen
              · rw [if_pos hseen, filterMap_cons_none (show fetchOf .skip = none from rfl), ih]
                refine and_congr_right fun hname ↦ ?_
                have hne : normalize name' ≠ normalize name := fun heq ↦ hname (heq ▸ hseen)
                simp [fetchOf, hne]
              · have hfetch : fetchOf (.fetch name' node') = some (name', node') := rfl
                rw [if_neg hseen, filterMap_cons_some hfetch, mem_cons, ih]
                by_cases heq : normalize name' = normalize name
                · simp only [mem_cons, heq, true_or, not_true, false_and, or_false]
                  rw [heq] at hseen
                  simp [fetchOf, heq, hseen, eq_comm]
                · have hne : (name, node) ≠ (name', node') := by
                    rintro ⟨⟩
                    exact heq rfl
                  have hne' : normalize name ≠ normalize name' := Ne.symm heq
                  simp [fetchOf, heq, hne, hne']

/-- When all entries of a listing are taken over, no two have the same normalised name. -/
theorem nodup_of_fetches (hnames : ((candidates listing).map Prod.fst).Nodup)
    (hall : ∀ e ∈ candidates listing, e ∈ (plainSteps normalize [] listing).filterMap fetchOf) :
    ((candidates listing).map fun e ↦ normalize e.1).Nodup := by
  rw [List.Nodup, pairwise_map]
  have hpairs := pairwise_map.mp hnames
  refine (List.Pairwise.and_mem.mp hpairs).imp ?_
  rintro ⟨a, n⟩ ⟨b, m⟩ ⟨ha, hb, hne⟩ heq
  have hfirst := (mem_fetches_plainSteps.mp (hall _ ha)).2
  have hsecond := (mem_fetches_plainSteps.mp (hall _ hb)).2
  simp only at heq
  rw [heq, hsecond] at hfirst
  cases hfirst
  exact hne rfl

/-- Where no two entries have the same normalised name, both walks take the same steps. -/
theorem plainSteps_eq (hdistinct : ((candidates listing).map fun e ↦ normalize e.1).Nodup)
    (hseen : ∀ e ∈ candidates listing, normalize e.1 ∉ seen) :
    plainSteps normalize seen listing = atomicSteps listing := by
  induction listing generalizing seen with
  | nil => rfl
  | cons e rest ih =>
      rw [candidates_cons] at hdistinct hseen
      rw [plainSteps, atomicSteps, filterMap_cons]
      cases hstep : atomicStep e with
      | none =>
          rw [hstep] at hdistinct hseen
          exact ih hdistinct hseen
      | some step =>
          rw [hstep] at hdistinct hseen
          cases step with
          | skip => exact congrArg (.skip :: ·) (ih hdistinct hseen)
          | fetch name node =>
              obtain ⟨hname, hrest⟩ := nodup_cons.mp hdistinct
              obtain ⟨hfirst, hothers⟩ := forall_mem_cons.mp hseen
              dsimp only
              rw [if_neg hfirst]
              refine congrArg (.fetch name node :: ·) (ih hrest fun e he hmem ↦ ?_)
              rcases mem_cons.mp hmem with heq | hmem
              · exact hname (mem_map.mpr ⟨e, he, heq⟩)
              · exact hothers e he hmem

/-! ## The loop over a listing -/

namespace RecursiveDownload

variable {download : RecursiveDownload} {depth : Nat} {pushed : List (List String)}

/-- What either walk does with an entry that it takes over. -/
def plainFetch (download : RecursiveDownload) (done : Downloaded) (path : List String) :
    Node Bytes → Result Downloaded :=
  done.fetch "recursive download directory" (download.localText path)
    (plainDownloadFile download.resume) path

def atomicFetch (download : RecursiveDownload) (done : Downloaded) (path : List String) :
    Node Bytes → Result Downloaded :=
  done.fetch "recursive atomic download directory" (download.localText path)
    (atomicDownloadFile download.resume) path

/-- A step in a directory. -/
def perform (fetch : Downloaded → List String → Node Bytes → Result Downloaded) (dir : List String)
    (done : Downloaded) : ListingStep → Result Downloaded
  | .skip => .ok done.skip
  | .fetch name node => fetch done (dir ++ [name]) node

/-- The directories among the steps. -/
def stepDirectories (dir : List String) (steps : List ListingStep) : List (List String) :=
  (steps.filterMap fetchOf).flatMap fun e ↦ pushDirectory (dir ++ [e.1]) e.2

theorem stepDirectories_fetch {steps : List ListingStep} :
    stepDirectories dir (.fetch name node :: steps) =
      pushDirectory (dir ++ [name]) node ++ stepDirectories dir steps := rfl

/-- An entry with a safe name is passed over, skipped or taken over. -/
theorem plainEntry_eq {loop : PlainLoop}
    (hsafe : ∀ c ∈ (atomicStep e).bind fetchOf, validateRemoteChildName c.1 = .ok ()) :
    download.plainEntry normalize dir depth loop e = match atomicStep e with
      | none => .ok loop
      | some .skip => .ok { loop with done := loop.done.skip }
      | some (.fetch name node) =>
          if normalize name ∈ loop.seen then .ok { loop with done := loop.done.skip }
          else (download.plainFetch loop.done (dir ++ [name]) node).map fun done ↦
            ⟨done, loop.pushed ++ (pushDirectory (dir ++ [name]) node).map (·, depth + 1),
              normalize name :: loop.seen⟩ := by
  unfold atomicStep at hsafe ⊢
  unfold plainEntry
  cases hnode : fetchable e.2 with
  | none => rfl
  | some node =>
      rw [hnode] at hsafe
      by_cases hdot : isDotName e.1
      · simp only [hdot, if_true]
      · simp only [hdot, if_false] at hsafe ⊢
        have hvalid : validateRemoteChildName e.1 = .ok () := hsafe (e.1, node) rfl
        rw [hvalid]
        show (if normalize e.1 ∈ loop.seen then _ else _ : Result PlainLoop) = _
        split
        · rfl
        · show (download.plainFetch loop.done (dir ++ [e.1]) node >>= fun done ↦ pure _ : Result _) = _
          cases download.plainFetch loop.done (dir ++ [e.1]) node <;> rfl

theorem plainLoop_eq {loop : PlainLoop}
    (hsafe : ∀ e ∈ candidates listing, validateRemoteChildName e.1 = .ok ()) :
    (listing.foldlM (download.plainEntry normalize dir depth) loop).map
        (fun loop ↦ (loop.done, loop.pushed)) =
      ((plainSteps normalize loop.seen listing).foldlM (perform download.plainFetch dir)
        loop.done).map fun done ↦ (done, loop.pushed ++
          (stepDirectories dir (plainSteps normalize loop.seen listing)).map (·, depth + 1)) := by
  induction listing generalizing loop with
  | nil =>
      rw [plainSteps, stepDirectories]
      exact congrArg (fun pushed ↦ Except.ok (loop.done, pushed)) (append_nil _).symm
  | cons e rest ih =>
      rw [candidates_cons] at hsafe
      have hrest := fun c hc ↦ hsafe c (mem_append_right _ hc)
      rw [foldlM_cons, plainEntry_eq fun c hc ↦ hsafe c
        (mem_append_left _ (Option.mem_toList.mpr hc)), plainSteps]
      cases hstep : atomicStep e with
      | none => exact ih hrest
      | some step =>
          cases step with
          | skip => exact ih hrest
          | fetch name node =>
              dsimp only
              by_cases hseen : normalize name ∈ loop.seen
              · rw [if_pos hseen, if_pos hseen]
                exact ih hrest
              · rw [if_neg hseen, if_neg hseen, foldlM_cons]
                show _ = (download.plainFetch loop.done (dir ++ [name]) node >>= _ : Result _).map _
                rw [stepDirectories_fetch, map_append, ← append_assoc]
                cases download.plainFetch loop.done (dir ++ [name]) node with
                | error e => rfl
                | ok done => exact ih hrest


theorem atomicEntry_eq {loop : AtomicLoop}
    (hsafe : ∀ c ∈ (atomicStep e).bind fetchOf, validateRemoteChildName c.1 = .ok ()) :
    download.atomicEntry dir loop e = match atomicStep e with
      | none => .ok loop
      | some .skip => .ok { loop with done := loop.done.skip }
      | some (.fetch name node) =>
          (download.atomicFetch loop.done (dir ++ [name]) node).map fun done ↦
            ⟨done, loop.pushed ++ pushDirectory (dir ++ [name]) node⟩ := by
  unfold atomicStep at hsafe ⊢
  unfold atomicEntry
  cases hnode : fetchable e.2 with
  | none => rfl
  | some node =>
      rw [hnode] at hsafe
      by_cases hdot : isDotName e.1
      · simp only [hdot, if_true]
      · simp only [hdot, if_false] at hsafe ⊢
        have hvalid : validateRemoteChildName e.1 = .ok () := hsafe (e.1, node) rfl
        rw [hvalid]
        show (download.atomicFetch loop.done (dir ++ [e.1]) node >>= fun done ↦ pure _ : Result _) = _
        cases download.atomicFetch loop.done (dir ++ [e.1]) node <;> rfl

theorem atomicSteps_cons : atomicSteps (e :: listing) =
    (atomicStep e).toList ++ atomicSteps listing := by
  rw [atomicSteps, atomicSteps, filterMap_cons]
  cases atomicStep e <;> rfl

theorem atomicLoop_eq {loop : AtomicLoop}
    (hsafe : ∀ e ∈ candidates listing, validateRemoteChildName e.1 = .ok ()) :
    (listing.foldlM (download.atomicEntry dir) loop).map (fun loop ↦ (loop.done, loop.pushed)) =
      ((atomicSteps listing).foldlM (perform download.atomicFetch dir) loop.done).map fun done ↦
        (done, loop.pushed ++ stepDirectories dir (atomicSteps listing)) := by
  induction listing generalizing loop with
  | nil =>
      rw [atomicSteps, stepDirectories]
      exact congrArg (fun pushed ↦ Except.ok (loop.done, pushed)) (append_nil _).symm
  | cons e rest ih =>
      rw [candidates_cons] at hsafe
      have hrest := fun c hc ↦ hsafe c (mem_append_right _ hc)
      rw [foldlM_cons, atomicEntry_eq fun c hc ↦ hsafe c
        (mem_append_left _ (Option.mem_toList.mpr hc)), atomicSteps_cons]
      cases hstep : atomicStep e with
      | none => exact ih hrest
      | some step =>
          cases step with
          | skip => exact ih hrest
          | fetch name node =>
              show _ = (download.atomicFetch loop.done (dir ++ [name]) node >>= _ : Result _).map _
              rw [Option.toList_some, singleton_append, stepDirectories_fetch,
                ← append_assoc]
              show (((download.atomicFetch loop.done (dir ++ [name]) node).map _ >>= _ : Result _)).map
                _ = _
              cases download.atomicFetch loop.done (dir ++ [name]) node with
              | error e => rfl
              | ok done => exact ih hrest

theorem preflightEntry_eq
    (hsafe : ∀ c ∈ (atomicStep e).bind fetchOf, validateRemoteChildName c.1 = .ok ()) :
    download.preflightEntry .empty dir pushed e = .ok (pushed ++ match atomicStep e with
      | none | some .skip => []
      | some (.fetch name node) => pushDirectory (dir ++ [name]) node) := by
  unfold atomicStep at hsafe ⊢
  unfold preflightEntry
  cases hnode : fetchable e.2 with
  | none => exact congrArg Except.ok (append_nil _).symm
  | some node =>
      rw [hnode] at hsafe
      by_cases hdot : isDotName e.1
      · simp only [hdot, if_true, append_nil]
      · simp only [hdot, if_false] at hsafe ⊢
        have hvalid : validateRemoteChildName e.1 = .ok () := hsafe (e.1, node) rfl
        rw [hvalid]
        cases node <;> rfl

/-- In a fresh directory the preflight finds nothing in its way. -/
theorem preflightLoop_eq (hsafe : ∀ e ∈ candidates listing, validateRemoteChildName e.1 = .ok ()) :
    listing.foldlM (download.preflightEntry .empty dir) pushed =
      .ok (pushed ++ stepDirectories dir (atomicSteps listing)) := by
  induction listing generalizing pushed with
  | nil => exact congrArg Except.ok (append_nil _).symm
  | cons e rest ih =>
      rw [candidates_cons] at hsafe
      have hrest := fun c hc ↦ hsafe c (mem_append_right _ hc)
      rw [foldlM_cons, preflightEntry_eq fun c hc ↦ hsafe c
        (mem_append_left _ (Option.mem_toList.mpr hc)), bind_ok, ih hrest,
        atomicSteps_cons, append_assoc]
      cases hstep : atomicStep e with
      | none => rfl
      | some step => cases step <;> rfl

/-- Every loop over a listing fails at a name that is not safe. -/
theorem loops_isOk_eq_false {c : String × Node Bytes} (hc : c ∈ candidates listing)
    (hrefused : validateRemoteChildName c.1 ≠ .ok ()) :
    (∀ loop, (listing.foldlM (download.plainEntry normalize dir depth) loop).isOk = false) ∧
      (∀ loop, (listing.foldlM (download.atomicEntry dir) loop).isOk = false) ∧
      ∀ pushed, (listing.foldlM (download.preflightEntry .empty dir) pushed).isOk = false := by
  obtain ⟨e, he, hcandidate⟩ := mem_filterMap.mp hc
  have hdot : ¬isDotName e.1 := by
    intro hdot
    rw [if_pos hdot] at hcandidate
    cases hcandidate
  rw [if_neg hdot] at hcandidate
  obtain ⟨node, hnode, rfl⟩ := Option.map_eq_some_iff.mp hcandidate
  obtain ⟨error, herror⟩ : ∃ error, validateRemoteChildName e.1 = .error error := by
    cases h : validateRemoteChildName e.1 with
    | error error => exact ⟨error, rfl⟩
    | ok u => exact absurd h hrefused
  refine ⟨foldlM_isOk_eq_false he fun loop ↦ ?_, foldlM_isOk_eq_false he fun loop ↦ ?_,
    foldlM_isOk_eq_false he fun pushed ↦ ?_⟩
  · rw [plainEntry, hnode]
    dsimp only
    rw [if_neg hdot, herror]
    rfl
  · rw [atomicEntry, hnode]
    dsimp only
    rw [if_neg hdot, herror]
    rfl
  · rw [preflightEntry, hnode]
    dsimp only
    rw [if_neg hdot, herror]
    rfl

/-! ## What the walks come to -/

/-- The directories that are pushed in a directory. -/
def plainNext (download : RecursiveDownload) (normalize : String → String) (dir : List String) :
    List (List String) :=
  stepDirectories dir (plainSteps normalize [] (download.readDir dir))

def atomicNext (download : RecursiveDownload) (dir : List String) : List (List String) :=
  stepDirectories dir (atomicSteps (download.readDir dir))

/-- The paths of the entries that are taken over. -/
def fetchPaths (dir : List String) (steps : List ListingStep) : List (List String) :=
  (steps.filterMap fetchOf).map fun e ↦ dir ++ [e.1]

theorem mem_candidates : (name, node) ∈ candidates (download.readDir dir) ↔
    ∃ n, download.tree.get? (dir ++ [name]) = some n ∧ fetchable n = some node := by
  have hlists (e : String × Node (Leaf Bytes)) := (download.lists dir).mem_iff (a := e)
  rw [candidates, mem_filterMap]
  constructor
  · rintro ⟨⟨name', n⟩, he, hcandidate⟩
    by_cases hdot : isDotName name'
    · rw [if_pos hdot] at hcandidate
      cases hcandidate
    · rw [if_neg hdot] at hcandidate
      obtain ⟨node', hnode, heq⟩ := Option.map_eq_some_iff.mp hcandidate
      cases heq
      refine ⟨n, mem_children.mp ((hlists _).mp (mem_filter.mpr ⟨he, ?_⟩)), hnode⟩
      exact decide_eq_true (not_or.mp hdot)
  · rintro ⟨n, hget, hnode⟩
    obtain ⟨he, hdot⟩ := mem_filter.mp ((hlists _).mpr (mem_children.mpr hget))
    refine ⟨(name, n), he, ?_⟩
    have hdot : ¬isDotName name := not_or.mpr (of_decide_eq_true hdot)
    rw [if_neg hdot, hnode]
    rfl

theorem fetchable_eq_dir_iff {n : Node (Leaf Bytes)} : fetchable n = some .dir ↔ n = .dir := by
  cases n with
  | dir => exact iff_of_true rfl rfl
  | file leaf => cases leaf <;> simp [fetchable]

theorem candidates_names_nodup : ((candidates (download.readDir dir)).map Prod.fst).Nodup := by
  have hnames : ((download.readDir dir).filter fun e ↦ e.1 ≠ "." ∧ e.1 ≠ "..").Pairwise
      fun a b ↦ a.1 ≠ b.1 :=
    (download.lists dir).symm.pairwise (pairwise_map.mp children_names_nodup)
      fun h ↦ Ne.symm h
  have hpairs : (candidates (download.readDir dir)).Pairwise fun a b ↦ a.1 ≠ b.1 := by
    refine List.Pairwise.filterMap _ ?_ (pairwise_filter.mp hnames)
    intro a a' hne b hb b' hb'
    by_cases hdot : isDotName a.1
    · rw [if_pos hdot] at hb
      cases hb
    by_cases hdot' : isDotName a'.1
    · rw [if_pos hdot'] at hb'
      cases hb'
    rw [if_neg hdot] at hb
    rw [if_neg hdot'] at hb'
    obtain ⟨node, -, rfl⟩ := Option.map_eq_some_iff.mp hb
    obtain ⟨node', -, rfl⟩ := Option.map_eq_some_iff.mp hb'
    exact hne (decide_eq_true (not_or.mp hdot)) (decide_eq_true (not_or.mp hdot'))
  exact pairwise_map.mpr hpairs

theorem fetches_plainSteps_sublist :
    ((plainSteps normalize seen listing).filterMap fetchOf).Sublist (candidates listing) := by
  induction listing generalizing seen with
  | nil => exact List.Sublist.refl _
  | cons e rest ih =>
      rw [candidates_cons, plainSteps]
      cases hstep : atomicStep e with
      | none => exact ih
      | some step =>
          cases step with
          | skip => exact ih
          | fetch name node =>
              dsimp only
              split
              · exact ih.cons _
              · exact ih.cons_cons _

theorem stepDirectories_sublist {steps : List ListingStep} :
    (stepDirectories dir steps).Sublist (fetchPaths dir steps) := by
  unfold stepDirectories fetchPaths
  induction steps.filterMap fetchOf with
  | nil => exact List.Sublist.refl _
  | cons c rest ih =>
      rw [flatMap_cons, map_cons]
      cases c.2 with
      | dir => exact ih.cons_cons _
      | file content => exact ih.cons _

theorem mem_stepDirectories {steps : List ListingStep} {path : List String} :
    path ∈ stepDirectories dir steps ↔
      ∃ name, path = dir ++ [name] ∧ (name, .dir) ∈ steps.filterMap fetchOf := by
  rw [stepDirectories, mem_flatMap]
  constructor
  · rintro ⟨⟨name, node⟩, he, hpath⟩
    cases node with
    | dir => exact ⟨name, mem_singleton.mp hpath, he⟩
    | file content => cases hpath
  · rintro ⟨name, rfl, he⟩
    exact ⟨_, he, mem_singleton_self _⟩

/-- What is taken over in a directory are different entries of it. -/
theorem fetchPaths_nodup {steps : List ListingStep}
    (h : (steps.filterMap fetchOf).Sublist (candidates (download.readDir dir))) :
    (fetchPaths dir steps).Nodup := by
  have hnames : ((candidates (download.readDir dir)).map Prod.fst).Nodup := candidates_names_nodup
  have hnames := pairwise_map.mp hnames
  refine pairwise_map.mpr ((hnames.sublist h).imp fun hne heq ↦ hne ?_)
  exact singleton_injective (append_cancel_left heq)

theorem stepDirectories_subperm {steps : List ListingStep}
    (h : (steps.filterMap fetchOf).Sublist (candidates (download.readDir dir))) :
    (stepDirectories dir steps).Subperm (download.tree.subdirs dir) := by
  refine subperm_of_subset ((fetchPaths_nodup h).sublist stepDirectories_sublist) ?_
  intro path hpath
  obtain ⟨name, rfl, he⟩ := mem_stepDirectories.mp hpath
  obtain ⟨n, hget, hdir⟩ := mem_candidates.mp (h.subset he)
  rw [fetchable_eq_dir_iff.mp hdir] at hget
  exact mem_subdirs.mpr ⟨name, rfl, hget⟩

/-- The directories that the transfer engine visits, when it refuses nothing. -/
def plainDirs (download : RecursiveDownload) (normalize : String → String) : List (List String) :=
  visits (download.plainNext normalize) (download.tree.entries.length + 1) [[]]

def atomicDirs (download : RecursiveDownload) : List (List String) :=
  visits download.atomicNext (download.tree.entries.length + 1) [[]]

variable {done : Downloaded}

theorem plainVisit_eq (hsafe : download.SafeNames dir) (hshallow : dir.length < maxDownloadDepth) :
    download.plainVisit normalize done (dir, dir.length) =
      ((plainSteps normalize [] (download.readDir dir)).foldlM (perform download.plainFetch dir)
        done).map fun done ↦
          (done, (download.plainNext normalize dir).map fun path ↦ (path, path.length)) := by
  have hloop : ((download.readDir dir).foldlM (download.plainEntry normalize dir dir.length)
      ⟨done, [], []⟩).map _ = _ := plainLoop_eq hsafe
  have hdepth : ∀ path ∈ download.plainNext normalize dir,
      (path, dir.length + 1) = (path, path.length) := by
    intro path hpath
    obtain ⟨name, rfl, -⟩ := mem_stepDirectories.mp hpath
    rw [length_append, length_singleton]
  rw [plainVisit, if_neg (Nat.not_le.mpr hshallow), ← map_congr_left hdepth]
  refine Eq.trans ?_ hloop
  cases (download.readDir dir).foldlM (download.plainEntry normalize dir dir.length) ⟨done, [], []⟩ <;>
    rfl

theorem plainVisit_isOk_eq_false
    (hbad : ¬(download.SafeNames dir ∧ dir.length < maxDownloadDepth)) :
    (download.plainVisit normalize done (dir, dir.length)).isOk = false := by
  rw [isOk_eq_false_iff]
  intro result hresult
  unfold plainVisit at hresult
  by_cases hdepth : dir.length ≥ maxDownloadDepth
  · rw [if_pos hdepth] at hresult
    cases hresult
  · rw [if_neg hdepth] at hresult
    obtain ⟨loop, hloop, -⟩ := bind_eq_ok.mp hresult
    refine hbad ⟨fun c hc ↦ ?_, Nat.not_le.mp hdepth⟩
    by_contra hrefused
    exact isOk_eq_false_iff.mp ((loops_isOk_eq_false hc hrefused).1 _) loop hloop

theorem atomicVisit_eq (hsafe : download.SafeNames dir) :
    download.atomicVisit done dir =
      ((atomicSteps (download.readDir dir)).foldlM (perform download.atomicFetch dir) done).map
        fun done ↦ (done, (download.atomicNext dir).map id) := by
  have hloop : ((download.readDir dir).foldlM (download.atomicEntry dir) ⟨done, []⟩).map _ = _ :=
    atomicLoop_eq hsafe
  rw [map_id]
  refine Eq.trans ?_ hloop
  unfold atomicVisit
  cases (download.readDir dir).foldlM (download.atomicEntry dir) ⟨done, []⟩ <;> rfl

theorem preflightVisit_eq {u : Unit} (hsafe : download.SafeNames dir) :
    download.preflightVisit .empty u dir = .ok ((), (download.atomicNext dir).map id) := by
  rw [preflightVisit, preflightLoop_eq hsafe, map_id]
  rfl

theorem exhausts_plainNext :
    Exhausts (download.plainNext normalize) (download.tree.entries.length + 1) [[]] :=
  exhausts_of_subperm (fun _ ↦ stepDirectories_subperm fetches_plainSteps_sublist) []

theorem exhausts_atomicNext :
    Exhausts download.atomicNext (download.tree.entries.length + 1) [[]] :=
  exhausts_of_subperm
    (fun _ ↦ stepDirectories_subperm (by rw [fetches_atomicSteps])) []

theorem exists_unsafe (hbad : ¬download.SafeNames dir) :
    ∃ c ∈ candidates (download.readDir dir), validateRemoteChildName c.1 ≠ .ok () := by
  by_contra hnone
  exact hbad fun c hc ↦ by_contra fun hrefused ↦ hnone ⟨c, hc, hrefused⟩

theorem atomicVisit_isOk_eq_false (hbad : ¬download.SafeNames dir) :
    (download.atomicVisit done dir).isOk = false := by
  obtain ⟨c, hc, hrefused⟩ := exists_unsafe hbad
  -- The depth and the normalisation belong to the other walk.
  obtain ⟨-, hloops, -⟩ :=
    @loops_isOk_eq_false id (download.readDir dir) dir download 0 c hc hrefused
  rw [isOk_eq_false_iff]
  intro result hresult
  obtain ⟨loop, hloop, -⟩ := bind_eq_ok.mp hresult
  exact isOk_eq_false_iff.mp (hloops _) loop hloop

theorem preflightVisit_isOk_eq_false {u : Unit} (hbad : ¬download.SafeNames dir) :
    (download.preflightVisit .empty u dir).isOk = false := by
  obtain ⟨c, hc, hrefused⟩ := exists_unsafe hbad
  obtain ⟨-, -, hloops⟩ :=
    @loops_isOk_eq_false id (download.readDir dir) dir download 0 c hc hrefused
  rw [preflightVisit, isOk_map]
  exact hloops []

theorem plainVisit_pushed {done' : Downloaded} {pushed : List (List String × Nat)}
    (h : download.plainVisit normalize done (dir, dir.length) = .ok (done', pushed)) :
    pushed = (download.plainNext normalize dir).map fun path ↦ (path, path.length) := by
  by_cases hdir : download.SafeNames dir ∧ dir.length < maxDownloadDepth
  · rw [plainVisit_eq hdir.1 hdir.2] at h
    obtain ⟨_, -, heq⟩ := map_eq_ok.mp h
    cases heq
    rfl
  · exact absurd h (isOk_eq_false_iff.mp (plainVisit_isOk_eq_false hdir) _)

theorem atomicVisit_pushed {done' : Downloaded}
    (h : download.atomicVisit done dir = .ok (done', pushed)) :
    pushed = (download.atomicNext dir).map id := by
  by_cases hsafe : download.SafeNames dir
  · rw [atomicVisit_eq hsafe] at h
    obtain ⟨_, -, heq⟩ := map_eq_ok.mp h
    cases heq
    rfl
  · exact absurd h (isOk_eq_false_iff.mp (atomicVisit_isOk_eq_false hsafe) _)

theorem preflightVisit_pushed {u u' : Unit}
    (h : download.preflightVisit .empty u dir = .ok (u', pushed)) :
    pushed = (download.atomicNext dir).map id := by
  by_cases hsafe : download.SafeNames dir
  · rw [preflightVisit_eq hsafe] at h
    cases h
    rfl
  · exact absurd h (isOk_eq_false_iff.mp (preflightVisit_isOk_eq_false hsafe) _)

/-- A walk is a fold over what it visits. -/
theorem plainWalk_eq : walk (download.plainVisit normalize) (download.tree.entries.length + 1) done
      [([], 0)] = (download.plainDirs normalize).foldlM (fun done dir ↦
        (download.plainVisit normalize done (dir, dir.length)).map Prod.fst) done :=
  walk_eq (fun dir : List String ↦ (dir, dir.length))
    (fun _ _ _ _ (_ : True) h ↦ plainVisit_pushed h) (fun _ _ _ _ ↦ trivial) (fun _ _ ↦ trivial)
    exhausts_plainNext done

theorem atomicWalk_eq : walk download.atomicVisit (download.tree.entries.length + 1) done [[]] =
      download.atomicDirs.foldlM (fun done dir ↦ (download.atomicVisit done dir).map Prod.fst) done :=
  walk_eq id (fun _ _ _ _ (_ : True) h ↦ atomicVisit_pushed h) (fun _ _ _ _ ↦ trivial)
    (fun _ _ ↦ trivial) exhausts_atomicNext done

theorem preflightAtomicDownloadTree_eq : download.preflightAtomicDownloadTree .empty =
      download.atomicDirs.foldlM (fun u dir ↦ (download.preflightVisit .empty u dir).map Prod.fst) () :=
  walk_eq id (fun _ _ _ _ (_ : True) h ↦ preflightVisit_pushed h) (fun _ _ _ _ ↦ trivial)
    (fun _ _ ↦ trivial) exhausts_atomicNext ()

/-! ## What the walks make -/

/-- An entry is taken over where nothing is in its way. -/
def taken (done : Downloaded) (path : List String) : Node Bytes → Downloaded
  | .dir => ⟨done.tree.insert path .dir,
      { done.summary with directories := done.summary.directories + 1 }⟩
  | .file content => ⟨done.tree.insert path (.file content), { done.summary with
      files := done.summary.files + 1
      bytes := done.summary.bytes + content.length }⟩

def applied (dir : List String) (done : Downloaded) : ListingStep → Downloaded
  | .skip => done.skip
  | .fetch name node => taken done (dir ++ [name]) node

/-- Nothing is in the way of an entry, nor, where that matters, in the way of its staging file. -/
def Clear (staged : Bool) (tree : LocalTree) (path : List String) (node : Node Bytes) : Prop :=
  tree.get? path = none ∧ (staged = true → node ≠ .dir → tree.get? (stagingPath path) = none)

/-- Where nothing is in the way both walks do the same. -/
def TakesFresh (staged : Bool)
    (fetch : Downloaded → List String → Node Bytes → Result Downloaded) : Prop :=
  ∀ done path node, Clear staged done.tree path node → fetch done path node = .ok (taken done path node)
variable (download) in
theorem plainFetch_takesFresh : TakesFresh false download.plainFetch := by
  rintro done path node ⟨hnone, -⟩
  cases node with
  | dir =>
      show (ensureLocalDirectory _ _ done.tree path >>= fun tree ↦ pure _ : Result _) = _
      rw [ensureLocalDirectory, hnone]
      rfl
  | file content =>
      show (plainDownloadFile _ _ done.tree path content >>= fun made ↦ pure _ : Result _) = _
      rw [plainDownloadFile, hnone]
      rfl

theorem erase_of_absent {tree : LocalTree} {path : List String} (h : tree.get? path = none) :
    tree.erase path = tree := by
  refine SortedMap.ext_get? fun other ↦ ?_
  rw [SortedMap.get?_erase]
  split
  · next heq => rw [heq, h]
  · rfl

variable (download) in
theorem atomicFetch_takesFresh : TakesFresh download.resume download.atomicFetch := by
  rintro done path node ⟨hnone, hstaging⟩
  cases node with
  | dir =>
      show (ensureLocalDirectory _ _ done.tree path >>= fun tree ↦ pure _ : Result _) = _
      rw [ensureLocalDirectory, hnone]
      rfl
  | file content =>
      show (atomicDownloadFile _ _ done.tree path content >>= fun made ↦ pure _ : Result _) = _
      rw [atomicDownloadFile, ensureAtomicDestinationAbsent, hnone]
      cases hresume : download.resume with
      | false => rfl
      | true =>
          have hgone := hstaging hresume (by simp)
          rw [resumeStaging, hgone, erase_of_absent hgone]
          rfl

theorem tree_taken (done : Downloaded) (path : List String) (node : Node Bytes) :
    (taken done path node).tree = done.tree.insert path node := by
  cases node <;> rfl

theorem get?_applied {steps : List ListingStep} {path : List String} :
    (steps.foldl (applied dir) done).tree.get? path ≠ none ↔
      done.tree.get? path ≠ none ∨ path ∈ fetchPaths dir steps := by
  induction steps generalizing done with
  | nil => simp [fetchPaths]
  | cons step rest ih =>
      rw [foldl_cons, ih]
      cases step with
      | skip => rfl
      | fetch name node =>
          have hpaths : fetchPaths dir (.fetch name node :: rest) =
              (dir ++ [name]) :: fetchPaths dir rest := rfl
          rw [hpaths, mem_cons, applied, tree_taken, SortedMap.get?_insert]
          by_cases hpath : path = dir ++ [name] <;> simp [hpath]

/-- No file comes behind an entry that has its staging name. -/
def Unstaged (entries : List (String × Node Bytes)) : Prop :=
  entries.Pairwise fun earlier later ↦ later.2 ≠ .dir → earlier.1 ≠ stagingName later.1

/-- A walk that comes to different entries takes over each of them. -/
theorem foldlM_perform {staged : Bool}
    {fetch : Downloaded → List String → Node Bytes → Result Downloaded}
    (hfetch : TakesFresh staged fetch) {steps : List ListingStep}
    (hnodup : (fetchPaths dir steps).Nodup)
    (hunstaged : staged = true → Unstaged (steps.filterMap fetchOf))
    (habsent : ∀ path ∈ fetchPaths dir steps, done.tree.get? path = none)
    (hstaging : staged = true → ∀ c ∈ steps.filterMap fetchOf, c.2 ≠ .dir →
      done.tree.get? (dir ++ [stagingName c.1]) = none) :
    steps.foldlM (perform fetch dir) done = .ok (steps.foldl (applied dir) done) := by
  induction steps generalizing done with
  | nil => rfl
  | cons step rest ih =>
      rw [foldlM_cons, foldl_cons]
      cases step with
      | skip => exact ih hnodup hunstaged habsent hstaging
      | fetch name node =>
          have hpaths : fetchPaths dir (.fetch name node :: rest) =
              (dir ++ [name]) :: fetchPaths dir rest := rfl
          have hfetches : (ListingStep.fetch name node :: rest).filterMap fetchOf =
              (name, node) :: rest.filterMap fetchOf := rfl
          rw [hpaths] at hnodup habsent
          rw [hfetches] at hunstaged hstaging
          obtain ⟨hname, hrest⟩ := nodup_cons.mp hnodup
          obtain ⟨hnone, hothers⟩ := forall_mem_cons.mp habsent
          have hclear : Clear staged done.tree (dir ++ [name]) node :=
            ⟨hnone, fun hstaged hfile ↦
              stagingPath_concat ▸ hstaging hstaged _ mem_cons_self hfile⟩
          rw [perform, hfetch _ _ _ hclear, bind_ok]
          refine ih hrest (fun hstaged ↦ (hunstaged hstaged).of_cons) (fun path hpath ↦ ?_)
            fun hstaged c hc hfile ↦ ?_
          · have hne : path ≠ dir ++ [name] := fun heq ↦ hname (heq ▸ hpath)
            rw [tree_taken, SortedMap.get?_insert_of_ne _ _ hne]
            exact hothers path hpath
          · have hne : dir ++ [stagingName c.1] ≠ dir ++ [name] := fun heq ↦
              (pairwise_cons.mp (hunstaged hstaged)).1 c hc hfile
                (singleton_injective (append_cancel_left heq)).symm
            rw [tree_taken, SortedMap.get?_insert_of_ne _ _ hne]
            exact hstaging hstaged c (mem_cons_of_mem _ hc) hfile

/-- The paths of all entries that a walk takes over. -/
def allPaths (steps : List String → List ListingStep) (dirs : List (List String)) :
    List (List String) :=
  dirs.flatMap fun dir ↦ fetchPaths dir (steps dir)

def allApplied (steps : List String → List ListingStep) (dirs : List (List String))
    (done : Downloaded) : Downloaded :=
  dirs.foldl (fun done dir ↦ (steps dir).foldl (applied dir) done) done

variable {steps : List String → List ListingStep} {dirs : List (List String)} {path : List String}

theorem get?_allApplied : (allApplied steps dirs done).tree.get? path ≠ none ↔
    done.tree.get? path ≠ none ∨ path ∈ allPaths steps dirs := by
  induction dirs generalizing done with
  | nil => simp [allApplied, allPaths]
  | cons dir rest ih =>
      have hpaths : allPaths steps (dir :: rest) = fetchPaths dir (steps dir) ++ allPaths steps rest :=
        flatMap_cons
      rw [allApplied, foldl_cons, ← allApplied, ih, get?_applied, hpaths, mem_append,
        or_assoc]

theorem foldlM_allApplied {staged : Bool}
    {fetch : Downloaded → List String → Node Bytes → Result Downloaded}
    (hfetch : TakesFresh staged fetch) (hdirs : dirs.Nodup)
    (hnodup : ∀ dir ∈ dirs, (fetchPaths dir (steps dir)).Nodup)
    (hunstaged : staged = true → ∀ dir ∈ dirs, Unstaged ((steps dir).filterMap fetchOf))
    (habsent : ∀ dir ∈ dirs, ∀ name, done.tree.get? (dir ++ [name]) = none) :
    dirs.foldlM (fun done dir ↦ (steps dir).foldlM (perform fetch dir) done) done =
      .ok (allApplied steps dirs done) := by
  induction dirs generalizing done with
  | nil => rfl
  | cons dir rest ih =>
      obtain ⟨hdir, hrest⟩ := nodup_cons.mp hdirs
      obtain ⟨hfirst, hothers⟩ := forall_mem_cons.mp habsent
      have hperform := foldlM_perform hfetch (hnodup dir mem_cons_self)
        (fun hstaged ↦ hunstaged hstaged dir mem_cons_self) (fun path hpath ↦ ?_)
        fun _ c _ _ ↦ hfirst (stagingName c.1)
      · rw [foldlM_cons, hperform, bind_ok]
        refine ih hrest (fun dir hdir ↦ hnodup dir (mem_cons_of_mem _ hdir))
          (fun hstaged dir hdir ↦ hunstaged hstaged dir (mem_cons_of_mem _ hdir))
          fun dir' hdir' name ↦ ?_
        by_contra hpresent
        rcases get?_applied.mp hpresent with h | h
        · exact h (hothers dir' hdir' name)
        · obtain ⟨c, -, heq⟩ := mem_map.mp h
          exact hdir ((append_inj' heq rfl).1 ▸ hdir')
      · obtain ⟨c, -, rfl⟩ := mem_map.mp hpath
        exact hfirst c.1

theorem plainDirs_nodup : (download.plainDirs normalize).Nodup :=
  visits_nodup_of_subperm (fun _ ↦ stepDirectories_subperm fetches_plainSteps_sublist) _ _

theorem atomicDirs_nodup : download.atomicDirs.Nodup :=
  visits_nodup_of_subperm (fun _ ↦ stepDirectories_subperm (by rw [fetches_atomicSteps])) _ _

/-- What the transfer engine makes, when it refuses nothing. -/
theorem plainWalk_ok (hgood : ∀ dir ∈ download.plainDirs normalize,
      download.SafeNames dir ∧ dir.length < maxDownloadDepth) :
    walk (download.plainVisit normalize) (download.tree.entries.length + 1) .fresh [([], 0)] =
      .ok (allApplied (fun dir ↦ plainSteps normalize [] (download.readDir dir))
        (download.plainDirs normalize) .fresh) := by
  rw [plainWalk_eq, ← foldlM_allApplied (plainFetch_takesFresh download) plainDirs_nodup
    (fun dir _ ↦ fetchPaths_nodup fetches_plainSteps_sublist) (fun h ↦ Bool.noConfusion h)
    fun _ _ _ ↦ rfl]
  refine foldlM_congr (fun done dir hdir ↦ ?_) _
  obtain ⟨hsafe, hshallow⟩ := hgood dir hdir
  rw [plainVisit_eq hsafe hshallow]
  cases (plainSteps normalize [] (download.readDir dir)).foldlM (perform download.plainFetch dir)
    done <;> rfl

theorem plainWalk_fails {dir : List String} (hdir : dir ∈ download.plainDirs normalize)
    (hbad : ¬(download.SafeNames dir ∧ dir.length < maxDownloadDepth)) :
    (walk (download.plainVisit normalize) (download.tree.entries.length + 1) .fresh
      [([], 0)]).isOk = false := by
  rw [plainWalk_eq]
  refine foldlM_isOk_eq_false hdir (fun done ↦ ?_) _
  rw [isOk_map]
  exact plainVisit_isOk_eq_false hbad

theorem preflight_ok (hsafe : ∀ dir ∈ download.atomicDirs, download.SafeNames dir) :
    download.preflightAtomicDownloadTree .empty = .ok () := by
  rw [preflightAtomicDownloadTree_eq]
  have hfold : ∀ dirs : List (List String), (∀ dir ∈ dirs, download.SafeNames dir) →
      dirs.foldlM (fun u dir ↦ (download.preflightVisit .empty u dir).map Prod.fst) () = .ok () := by
    intro dirs
    induction dirs with
    | nil => exact fun _ ↦ rfl
    | cons dir rest ih =>
        intro hdirs
        obtain ⟨hdir, hrest⟩ := forall_mem_cons.mp hdirs
        rw [foldlM_cons, preflightVisit_eq hdir]
        exact ih hrest
  exact hfold _ hsafe

/-- The atomic download is a fold over what it visits, when all names are safe. -/
theorem atomicWalks_eq (hsafe : ∀ dir ∈ download.atomicDirs, download.SafeNames dir) :
    (do
      download.preflightAtomicDownloadTree Downloaded.fresh.tree
      walk download.atomicVisit (download.tree.entries.length + 1) .fresh [[]]) =
      download.atomicDirs.foldlM (fun done dir ↦
        (atomicSteps (download.readDir dir)).foldlM (perform download.atomicFetch dir) done)
        .fresh := by
  rw [show Downloaded.fresh.tree = .empty from rfl, preflight_ok hsafe, bind_ok,
    atomicWalk_eq]
  refine foldlM_congr (fun done dir hdir ↦ ?_) _
  rw [atomicVisit_eq (hsafe dir hdir)]
  cases (atomicSteps (download.readDir dir)).foldlM (perform download.atomicFetch dir) done <;> rfl

/-- What the atomic download makes, when it refuses nothing and no file stands in the place of a
staging file. -/
theorem atomicWalks_ok (hsafe : ∀ dir ∈ download.atomicDirs, download.SafeNames dir)
    (hunstaged : download.resume = true → ∀ dir ∈ download.atomicDirs,
      Unstaged (candidates (download.readDir dir))) :
    (do
      download.preflightAtomicDownloadTree Downloaded.fresh.tree
      walk download.atomicVisit (download.tree.entries.length + 1) .fresh [[]]) =
      .ok (allApplied (fun dir ↦ atomicSteps (download.readDir dir)) download.atomicDirs .fresh) := by
  rw [atomicWalks_eq hsafe]
  refine foldlM_allApplied (atomicFetch_takesFresh download) atomicDirs_nodup
    (fun dir _ ↦ fetchPaths_nodup (by rw [fetches_atomicSteps])) (fun hresume dir hdir ↦ ?_)
    fun _ _ _ ↦ rfl
  rw [fetches_atomicSteps]
  exact hunstaged hresume dir hdir

theorem atomicWalks_fail {dir : List String} (hdir : dir ∈ download.atomicDirs)
    (hbad : ¬download.SafeNames dir) :
    (do
      download.preflightAtomicDownloadTree Downloaded.fresh.tree
      walk download.atomicVisit (download.tree.entries.length + 1) .fresh [[]]).isOk = false := by
  have hpreflight : (download.preflightAtomicDownloadTree .empty).isOk = false := by
    rw [preflightAtomicDownloadTree_eq]
    refine foldlM_isOk_eq_false hdir (fun u ↦ ?_) _
    rw [isOk_map]
    exact preflightVisit_isOk_eq_false hbad
  rw [isOk_eq_false_iff] at hpreflight ⊢
  intro done hdone
  obtain ⟨u, hu, -⟩ := bind_eq_ok.mp hdone
  exact hpreflight u hu

end RecursiveDownload

end KaduoxSsh.Transfer
