import KaduoxSsh.Transfer.FileTransferRuns

/-!
# What an atomic transfer is for

An atomic transfer that resumes builds up its staging file over any number of attempts,
and publishes it when it is the whole source. It goes by the length alone, so that it
publishes the gap that is left by a server that refuses a write and carries out a later
one. Publication never replaces anything: what others put at the destination, at
whatever moment, stays there. One thing touches the destination afterwards: an upload
stamps what it has published by its path, and that may be somebody else's by then. A
download stamps its staging file.
-/

namespace KaduoxSsh.Transfer

open Resume

namespace FileTransfer

variable {P : Type} [LinearOrder P] {o : TransferOptions} {job : FileTransfer P}
  {found : Option Object} {t t' : Files P} {s s' : FileState P} {r : FileRequest}

/-! ## Attempts that resume -/

/-- The staging file is absent, or it is the beginning of the source. -/
def Staged (source : Bytes) (found : Option Object) : Prop :=
  found = none ∨ ∃ bytes, found.bind Object.bytes? = some bytes ∧ bytes <+: source

theorem staged_of_bytesAt {p : P} {bytes source : Bytes} (hbytes : bytesAt t p = some bytes)
    (hbegins : bytes <+: source) : Staged source (t.get? p) :=
  .inr ⟨bytes, hbytes, hbegins⟩

omit [LinearOrder P] in
theorem Staged.kept_prefix (h : Staged job.source found) (o : TransferOptions) :
    job.kept o found <+: job.source := by
  rcases kept_eq_nil_or o job found with hnil | hkept
  · rw [hnil]
    exact List.nil_prefix
  · rcases h with rfl | ⟨bytes, hbytes, hbegin⟩
    · cases hkept
    · rw [hkept] at hbytes
      cases hbytes
      exact hbegin
/-- In each state of an attempt without gaps the staging file is a beginning of the source, when it was
one before. -/
theorem OrderlyAttempt.staged (h : OrderlyAttempt o job t s) (hatomic : o.atomic = true)
    (hne : job.work ≠ job.path) (hstart : Staged job.source (t.get? job.work)) :
    Staged job.source (s.files.get? job.work) ∧
      (s.phase = .published ∨ s.phase = .done → bytesAt s.files job.path = some job.source) := by
  have htarget : job.target o = job.work := if_pos hatomic
  have hwork := h.attempt.work
  have hpath := h.attempt.path hatomic hne
  have hgapless := h.gapless
  rw [htarget] at hwork hpath
  have hkept := hstart.kept_prefix o
  have hcompleted := completed_eq_iff.mpr hkept
  cases hphase : s.phase with
  | waiting =>
      rw [hphase, WorkProgress, htarget] at hwork
      exact ⟨hwork ▸ hstart, by simp⟩
  | inspected =>
      rw [hphase, WorkProgress, htarget] at hwork
      exact ⟨hwork.1 ▸ hstart, by simp⟩
  | writing w =>
      obtain ⟨-, -, hbytes⟩ := hgapless w hphase
      rw [htarget] at hbytes
      exact ⟨staged_of_bytesAt hbytes (continued_prefix_iff.mpr hkept), by simp⟩
  | closed =>
      rw [hphase, WorkProgress, htarget, hcompleted] at hwork
      exact ⟨staged_of_bytesAt hwork List.prefix_rfl, by simp⟩
  | stamped =>
      rw [hphase, WorkProgress, htarget, hcompleted] at hwork
      exact ⟨staged_of_bytesAt hwork.2 List.prefix_rfl, by simp⟩
  | published =>
      rw [hphase, PathProgress, hcompleted] at hpath
      refine ⟨?_, fun _ ↦ hpath.1⟩
      cases hdirection : job.direction with
      | upload => exact .inl (hpath.2.1 hdirection)
      | download => exact staged_of_bytesAt (hpath.2.2 hdirection) List.prefix_rfl
  | done =>
      rw [hphase, PathProgress, hcompleted] at hpath
      exact ⟨.inl hpath.2, fun _ ↦ hpath.1⟩
  | failed =>
      rw [hphase, PathProgress] at hpath
      exact ⟨.inl hpath.1, by simp⟩

/-- Atomic attempts that resume, each of them broken off anywhere. -/
inductive ResumableAttempts (attempt : TransferOptions → Files P → FileState P → Prop)
    (t : Files P) : FileState P → Prop
  | first {o : TransferOptions} {s : FileState P} (hatomic : o.atomic = true)
      (hresume : o.resume = true) (h : attempt o t s) : ResumableAttempts attempt t s
  | next {o : TransferOptions} {s s' : FileState P} (hearlier : ResumableAttempts attempt t s)
      (hatomic : o.atomic = true) (hresume : o.resume = true) (h : attempt o s.files s') :
      ResumableAttempts attempt t s'

theorem ResumableAttempts.staged (h : ResumableAttempts (OrderlyAttempt · job) t s)
    (hne : job.work ≠ job.path) (hstart : Staged job.source (t.get? job.work)) :
    Staged job.source (s.files.get? job.work) ∧
      (s.phase = .published ∨ s.phase = .done → bytesAt s.files job.path = some job.source) := by
  induction h with
  | first hatomic _ h => exact OrderlyAttempt.staged h hatomic hne hstart
  | next _ hatomic _ h ih => exact OrderlyAttempt.staged h hatomic hne ih.1

/-- A staging file that is no file, or longer than the source. -/
def Unfit (job : FileTransfer P) (found : Option Object) : Prop :=
  ∃ object, found = some object ∧ ∀ bytes, object.bytes? = some bytes → job.total < bytes.length

theorem inspect_of_unfit (hatomic : o.atomic = true) (h : job.Unfit (t.get? job.work)) :
    job.inspect o t = none := by
  obtain ⟨object, hobject, hunfit⟩ := h
  rw [inspect, if_pos hatomic, hobject]
  dsimp only
  split
  · rfl
  · split
    · next bytes hkind =>
      have hlong : job.total < bytes.length := hunfit bytes (by rw [Object.bytes?, hkind])
      rw [if_pos hlong]
      exact ite_self none
    · rfl

/-- Nothing else at the two paths is refused by an attempt that resumes. -/
theorem inspect_of_fit (hatomic : o.atomic = true) (hresume : o.resume = true)
    (hpath : t.get? job.path = none) (hfit : ¬job.Unfit (t.get? job.work)) :
    job.inspect o t ≠ none := by
  rw [inspect, if_pos hatomic, hpath, if_neg (not_not_intro rfl)]
  cases hwork : t.get? job.work with
  | none => exact Option.some_ne_none _
  | some object =>
      dsimp only
      rw [hwork] at hfit
      split
      · next bytes hkind =>
        have hlength : ¬bytes.length > job.total := by
          intro hlong
          refine hfit ⟨object, rfl, fun other hother ↦ ?_⟩
          rw [Object.bytes?, hkind] at hother
          cases hother
          exact hlong
        rw [hresume, Bool.not_true, if_neg Bool.false_ne_true, if_neg hlength]
        exact Option.some_ne_none _
      · next hkind =>
        refine absurd ⟨object, rfl, fun other hother ↦ ?_⟩ hfit
        unfold Object.bytes? at hother
        split at hother
        · next bytes hregular => exact absurd hregular (hkind bytes)
        · cases hother

theorem inspect_of_requested {phase : FilePhase} (h : Requested o job t .waiting r t' phase) :
    job.inspect o t = some phase := by
  cases h with
  | inspect h => exact h
  | publish hphase => rcases hphase with ⟨hphase, -⟩ | hphase <;> cases hphase
  | abandon hphase => rcases hphase with ⟨pos, hphase⟩ | hphase | hphase <;> cases hphase

/-- An attempt that finds such a file does not begin. -/
theorem Attempt.eq_of_unfit (h : Attempt o job t s) (hatomic : o.atomic = true)
    (hunfit : job.Unfit (t.get? job.work)) : s = ⟨t, .waiting⟩ := by
  induction h with
  | start => rfl
  | next _ _ hstep ih =>
      subst ih
      have hinspect := inspect_of_requested (requested (step_eq_some hstep))
      rw [inspect_of_unfit hatomic hunfit] at hinspect
      cases hinspect

/-- However often an atomic transfer is broken off and resumed, as long as no write is carried out
behind one that was refused: its staging file is a beginning of the source, and what it publishes is
the source. A staging file that cannot be a beginning is not taken in any case. -/
theorem atomic_resume_exact (hne : job.work ≠ job.path)
    (hstart : Staged job.source (t.get? job.work)) :
    (∀ s, ResumableAttempts (OrderlyAttempt · job) t s → Staged job.source (s.files.get? job.work) ∧
      (s.phase = .published ∨ s.phase = .done → bytesAt s.files job.path = some job.source)) ∧
    ∀ (o : TransferOptions) (t' : Files P) (s : FileState P), o.atomic = true → o.resume = true →
      job.Unfit (t'.get? job.work) → Attempt o job t' s → s = ⟨t', .waiting⟩ :=
  ⟨fun _ h ↦ h.staged hne hstart, fun _ _ _ hatomic _ hunfit h ↦ h.eq_of_unfit hatomic hunfit⟩

/-- An upload of four bytes, two at a time. -/
def fourBytes : FileTransfer Nat := ⟨.upload, 0, 1, [11, 12, 13, 14], some 5, none⟩

def resuming : TransferOptions := { TransferOptions.default with resume := true }

/-- It is broken off when the server refuses the second half of the second write, and then
completed. -/
theorem atomic_resume_exact_fourBytes :
    ∃ s, ResumableAttempts (OrderlyAttempt · fourBytes) .empty s ∧ s.phase = .done ∧
      bytesAt s.files 0 = some [11, 12, 13, 14] := by
  let first : FileState Nat :=
    ⟨.insert .empty 1 ⟨.regular [11, 12, 13], none, none⟩, .writing ⟨4, [], some 3⟩⟩
  let last : FileState Nat := ⟨.insert .empty 0 ⟨.regular [11, 12, 13, 14], some 5, none⟩, .done⟩
  have hfirst : OrderlyAttempt resuming fourBytes .empty first := Reaches.start.runChecked
    [.inspect, .create none none, .send 2, .send 2, .write none, .refuse 1 none] rfl
  have hlast : OrderlyAttempt resuming fourBytes first.files last := Reaches.start.runChecked
    [.inspect, .create none none, .send 1, .write none, .close, .publish, .stamp] rfl
  have hattempts : ResumableAttempts (OrderlyAttempt · fourBytes) .empty last :=
    (ResumableAttempts.first rfl rfl hfirst).next rfl rfl hlast
  have hne : fourBytes.work ≠ fourBytes.path := by decide
  have hexact := (atomic_resume_exact hne (t := .empty) (.inl rfl)).1 last hattempts
  exact ⟨last, hattempts, rfl, hexact.2 (.inr rfl)⟩

/-- The server refuses the first write and carries out the second. The gap has the length of a
beginning, so that the next attempt writes nothing and publishes it. -/
theorem resume_publishes_gap :
    ∃ s s', ResumableAttempts (Attempt · fourBytes) .empty s ∧
      ResumableAttempts (Attempt · fourBytes) .empty s' ∧
      bytesAt s.files 1 = some [0, 0, 13, 14] ∧ ¬Staged fourBytes.source (s.files.get? 1) ∧
      s'.phase = .done ∧ bytesAt s'.files 0 = some [0, 0, 13, 14] := by
  let gap : Object := ⟨.regular [0, 0, 13, 14], none, none⟩
  let first : FileState Nat := ⟨.insert .empty 1 gap, .writing ⟨4, [], some 0⟩⟩
  let last : FileState Nat := ⟨.insert .empty 0 { gap with mtime := some 5 }, .done⟩
  have hfirst : Attempt resuming fourBytes .empty first := Reaches.start.runEvents
    [.inspect, .create none none, .send 2, .send 2, .refuse 0 none, .write none] rfl
  have hlast : Attempt resuming fourBytes first.files last := Reaches.start.runEvents
    [.inspect, .skip, .publish, .stamp] rfl
  have hattempts : ResumableAttempts (Attempt · fourBytes) .empty first := .first rfl rfl hfirst
  refine ⟨first, last, hattempts, hattempts.next rfl rfl hlast, rfl, ?_, rfl, rfl⟩
  rintro (hnone | ⟨bytes, hbytes, hbegins⟩)
  · cases hnone
  · cases hbytes
    exact absurd hbegins (by decide)


/-! ## Others at the destination -/

/-- A transfer and others who use its destination. -/
structure SharedState (P : Type) [LinearOrder P] where
  files : Files P
  phase : FilePhase
  /-- What stands at the destination was put there by the transfer. -/
  mine : Bool
  /-- What others have left at the destination. -/
  theirs : Option Object

inductive SharedEvent where
  | own (r : FileRequest)
  | put (object : Object)
  | remove
deriving DecidableEq, Repr

/-- A request of the transfer, or others create, replace or remove the destination. -/
def sharedStep (o : TransferOptions) (job : FileTransfer P) (s : SharedState P) :
    SharedEvent → Option (SharedState P)
  | .own r => (job.request o s.files s.phase r).map fun next ↦
      { s with files := next.1, phase := next.2, mine := s.mine || decide (r = .publish) }
  | .put object => some
      { s with files := s.files.insert job.path object, mine := false, theirs := some object }
  | .remove => some { s with files := s.files.erase job.path, mine := false, theirs := none }

def sharedStart (job : FileTransfer P) (t : Files P) : SharedState P :=
  ⟨t, .waiting, false, t.get? job.path⟩

/-- An upload does not stamp what others have put in the place of what it has published. -/
def StampsOwn (job : FileTransfer P) (s : SharedState P) (e : SharedEvent) : Prop :=
  e = .own .stamp → job.direction = .upload → s.phase = .published →
    s.files.get? job.path ≠ none → s.mine = true

/-- What stands at the destination is what others left there, or, where they left nothing, the whole
of what the transfer has published. -/
structure NoReplace (o : TransferOptions) (job : FileTransfer P) (found : Option Object)
    (s : SharedState P) : Prop where
  work : job.WorkProgress o found s.files s.phase
  theirs : s.mine = false → s.files.get? job.path = s.theirs
  absent : s.mine = true → s.theirs = none
  whole : s.mine = true →
    bytesAt s.files job.path = some (completed (job.kept o found) job.source)

variable {u u' : SharedState P} {e : SharedEvent}

/-- Only publication and the stamp of an upload touch the destination of an atomic transfer. -/
theorem Requested.get?_path {phase phase' : FilePhase} (h : Requested o job t phase r t' phase')
    (hatomic : o.atomic = true) (hne : job.work ≠ job.path) :
    r ≠ .publish ∧ t'.get? job.path = t.get? job.path ∨
      (r = .publish ∧ (phase = .closed ∨ phase = .stamped) ∧ job.publish t = some t') ∨
      r = .stamp ∧ job.direction = .upload ∧ phase = .published ∧
        job.stampAt t job.path = some t' := by
  have htarget : job.path ≠ job.target o := by
    rw [target, if_pos hatomic]
    exact hne.symm
  cases h with
  | inspect | skip | send | close => exact .inl ⟨by simp, rfl⟩
  | create _ h => exact .inl ⟨by simp, get?_create_of_ne h htarget⟩
  | write h => exact .inl ⟨by simp, get?_carryOut_of_ne h htarget⟩
  | refuse h => exact .inl ⟨by simp, get?_refuse_of_ne h htarget⟩
  | stampPath hplain =>
      rw [hatomic] at hplain
      cases hplain
  | stampWork _ _ h => exact .inl ⟨by simp, get?_stampAt_of_ne h hne.symm⟩
  | publish hphase h => exact .inr (.inl ⟨rfl, hphase.imp_left And.left, h⟩)
  | stampPublished hdirection h => exact .inr (.inr ⟨rfl, hdirection, rfl, h⟩)
  | cleanUp | abandon =>
      exact .inl ⟨by simp, by rw [SortedMap.get?_erase, if_neg hne.symm]⟩

/-- There is nothing to stamp where nothing is. -/
theorem eq_of_stampAt_none {p : P} (hnone : t.get? p = none) (h : job.stampAt t p = some t') :
    t' = t := by
  unfold stampAt at h
  split at h
  · cases h
    rfl
  · rw [hnone] at h
    cases h

theorem noReplace_start (job : FileTransfer P) (t : Files P) :
    NoReplace o job (t.get? (job.target o)) (sharedStart job t) where
  work := rfl
  theirs _ := rfl
  absent := by simp [sharedStart]
  whole := by simp [sharedStart]

theorem NoReplace.step (hatomic : o.atomic = true) (hne : job.work ≠ job.path)
    (h : NoReplace o job found u) (hadmits : StampsOwn job u e)
    (hstep : sharedStep o job u e = some u') : NoReplace o job found u' := by
  have htarget : job.target o = job.work := if_pos hatomic
  have hne' : job.target o ≠ job.path := htarget ▸ hne
  cases e with
  | put object =>
      cases hstep
      exact ⟨h.work.congr (SortedMap.get?_insert_of_ne _ _ hne'),
        fun _ ↦ SortedMap.get?_insert_self _ _ _, by simp, by simp⟩
  | remove =>
      cases hstep
      exact ⟨h.work.congr (by rw [SortedMap.get?_erase, if_neg hne']),
        fun _ ↦ by rw [SortedMap.get?_erase, if_pos rfl], fun _ ↦ rfl, by simp⟩
  | own r =>
      obtain ⟨⟨files, phase⟩, hrequest, rfl⟩ := Option.map_eq_some_iff.mp hstep
      have hwork := request_work h.work hrequest
      rcases (requested hrequest).get?_path hatomic hne with
        ⟨hr, hpath⟩ | ⟨rfl, hphase, hpublish⟩ | ⟨rfl, hdirection, hphase, hstamp⟩
      · -- The destination is as it was.
        have hmine : (u.mine || decide (r = .publish)) = u.mine := by simp [hr]
        refine ⟨hwork, fun hm ↦ ?_, fun hm ↦ ?_, fun hm ↦ ?_⟩
        · exact hpath.trans (h.theirs (hmine ▸ hm))
        · exact h.absent (hmine ▸ hm)
        · exact (bytesAt_congr hpath).trans (h.whole (hmine ▸ hm))
      · -- Nothing stood at the destination, so that nothing there was the transfer's own.
        obtain ⟨hnone, hpublished, -⟩ := publish_eq_some hpublish
        have hbytes : bytesAt u.files job.work = some (completed (job.kept o found) job.source) := by
          have hprogress := h.work
          rw [← htarget]
          rcases hphase with hphase | hphase <;> rw [hphase] at hprogress
          · exact hprogress
          · exact hprogress.2
        have hmine : u.mine = false := by
          rw [← Bool.not_eq_true]
          intro hm
          have hwhole := h.whole hm
          rw [bytesAt, hnone] at hwhole
          cases hwhole
        refine ⟨hwork, by simp, fun _ ↦ ?_, fun _ ↦ ?_⟩
        · rw [← h.theirs hmine]
          exact hnone
        · rw [bytesAt, hpublished]
          exact hbytes
      · have hmine : (u.mine || decide (FileRequest.stamp = .publish)) = u.mine := by simp
        refine ⟨hwork, fun hm ↦ ?_, fun hm ↦ ?_, fun hm ↦ ?_⟩
        · rw [hmine] at hm
          have hnone : u.files.get? job.path = none := by
            by_contra hoccupied
            have hown := hadmits rfl hdirection hphase hoccupied
            rw [hm] at hown
            cases hown
          rw [eq_of_stampAt_none hnone hstamp]
          exact h.theirs hm
        · exact h.absent (hmine ▸ hm)
        · exact (bytesAt_stampAt hstamp _).trans (h.whole (hmine ▸ hm))

theorem NoReplace.of_reaches (hatomic : o.atomic = true) (hne : job.work ≠ job.path)
    (h : Reaches (sharedStep o job) (StampsOwn job) (sharedStart job t) u) :
    NoReplace o job (t.get? (job.target o)) u := by
  apply h.invariant (noReplace_start job t)
  intro u e u' hinv hadmits hstep
  exact hinv.step hatomic hne hadmits hstep
/-- As long as no upload stamps what others have put in the place of what it has published, an atomic
transfer leaves what others put at the destination as it is, shows nothing but the whole of what it
publishes, and does not get past a destination that is there. -/
theorem atomic_no_replace (hatomic : o.atomic = true) (hne : job.work ≠ job.path)
    (h : Reaches (sharedStep o job) (StampsOwn job) (sharedStart job t) u) :
    (u.mine = false → u.files.get? job.path = u.theirs) ∧
      (u.mine = true → u.theirs = none ∧ ∃ bytes, bytesAt u.files job.path = some bytes ∧
        bytes.length = job.source.length ∧
        (Staged job.source (t.get? job.work) → bytes = job.source)) ∧
      (u.files.get? job.path ≠ none → sharedStep o job u (.own .publish) = none) := by
  have hinv := NoReplace.of_reaches hatomic hne h
  rw [target, if_pos hatomic] at hinv
  refine ⟨hinv.theirs, fun hm ↦ ⟨hinv.absent hm, _, hinv.whole hm,
    length_completed length_kept_le, fun hstaged ↦ ?_⟩, fun hoccupied ↦ ?_⟩
  · exact completed_eq_iff.mpr (hstaged.kept_prefix o)
  · rw [sharedStep, Option.map_eq_none_iff]
    by_contra hrequest
    obtain ⟨⟨files, phase⟩, hrequest⟩ := Option.ne_none_iff_exists'.mp hrequest
    rcases (requested hrequest).get?_path hatomic hne with ⟨hr, -⟩ | ⟨-, -, hpublish⟩ | ⟨hr, -⟩
    · exact hr rfl
    · exact hoccupied (publish_eq_some hpublish).1
    · cases hr

/-- Others create the destination of a download and remove it again, and replace it as soon as it is
published. -/
theorem atomic_no_replace_download :
    let job : FileTransfer Nat := ⟨.download, 0, 1, [7], some 5, none⟩
    let theirs : Object := ⟨.regular [9], none, none⟩
    ∃ u, Reaches (sharedStep TransferOptions.default job) (fun _ _ ↦ True) (sharedStart job .empty)
      u ∧ u.phase = .done ∧ u.files.get? 0 = some theirs := by
  intro job theirs
  let last : SharedState Nat := ⟨.insert .empty 0 theirs, .done, false, some theirs⟩
  have hrun : Reaches (sharedStep TransferOptions.default job) (fun _ _ ↦ True)
      (sharedStart job .empty) last := Reaches.start.runEvents
    [.own .inspect, .put theirs, .own (.create none none), .own (.send 1), .own (.write none), .remove,
      .own .close, .own .stamp, .own .publish, .put theirs, .own .cleanUp] rfl
  have hadmitted : Reaches (sharedStep TransferOptions.default job) (StampsOwn job)
      (sharedStart job .empty) last := by
    apply hrun.mono
    intro _ _ _ _ hupload
    cases hupload
  exact ⟨last, hrun, rfl, (atomic_no_replace rfl (by decide) hadmitted).1 rfl⟩

/-- Others replace what an upload has published before it stamps it. -/
theorem upload_stamps_foreign_object :
    let job : FileTransfer Nat := ⟨.upload, 0, 1, [7], some 5, some 420⟩
    ∃ u, Reaches (sharedStep TransferOptions.default job) (fun _ _ ↦ True) (sharedStart job .empty)
      u ∧ u.mine = false ∧ u.theirs = some ⟨.regular [9], none, some 384⟩ ∧
        u.files.get? 0 = some ⟨.regular [9], some 5, some 420⟩ := by
  intro job
  let last : SharedState Nat := ⟨.insert .empty 0 ⟨.regular [9], some 5, some 420⟩, .done, false,
    some ⟨.regular [9], none, some 384⟩⟩
  have hrun : Reaches (sharedStep TransferOptions.default job) (fun _ _ ↦ True)
      (sharedStart job .empty) last := Reaches.start.runEvents
    [.own .inspect, .own (.create none none), .own (.send 1), .own (.write none), .own .close,
      .own .publish, .put ⟨.regular [9], none, some 384⟩, .own .stamp] rfl
  exact ⟨last, hrun, rfl, rfl, rfl⟩

end FileTransfer

end KaduoxSsh.Transfer
