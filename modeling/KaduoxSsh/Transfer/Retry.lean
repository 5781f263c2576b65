import KaduoxSsh.Transfer.FileTransferRuns
import KaduoxSsh.Transfer.TaskRegistry

/-!
# Transfers that are retried

`retry` of `transfer_task_manager.rs`: a task that was cancelled or has failed runs
again from the same source to the same destination, and resumes. A transfer that is not
atomic resumes behind what stands at its destination, whoever has written that. So a
retry trusts bytes that were there before the task, unless an attempt has emptied the
destination first, and the gap that an attempt has left (`OrderlyAttempt` rules it out).
-/

namespace KaduoxSsh.Transfer

open Resume FileTransfer

/-! ## The task that is run again -/

/-- What `run_registered` is called with. -/
structure TaskRun where
  kind : TransferTaskKind
  source : String
  destination : String
  options : TransferOptions
deriving DecidableEq, Repr

/-- `TransferTaskManager::retry` up to the transfer. -/
def retry (previous : Nat) (options : TransferOptions) (inner : RegistryInner) :
    Result TaskRun × RegistryInner :=
  match inner.tasks.get? previous with
  | none => (Result.bail (unknownTask previous), inner)
  | some record =>
      let snapshot := record.snapshot
      match registerRetry previous inner with
      | (.error e, inner) => (.error e, inner)
      | (.ok _, inner) => (.ok ⟨snapshot.kind, snapshot.source, snapshot.destination,
          { options with resume := true }⟩, inner)

/-- The transfer of a task whose source is one file. The staging file is the one of a transfer that
resumes; a transfer that is not atomic has none. -/
def taskTransfer (sources : String → SourceFile) (kind : TransferTaskKind)
    (source destination : String) : FileTransfer String where
  direction := kind.direction
  path := destination
  work := destination ++ ".kaduox.part"
  source := (sources source).bytes
  mtime := (sources source).mtime
  mode := (sources source).sentMode kind.direction
def TransferTaskSnapshot.transfer (snapshot : TransferTaskSnapshot) (sources : String → SourceFile) :
    FileTransfer String :=
  taskTransfer sources snapshot.kind snapshot.source snapshot.destination

def TaskRun.transfer (run : TaskRun) (sources : String → SourceFile) : FileTransfer String :=
  taskTransfer sources run.kind run.source run.destination

variable {sources : String → SourceFile} {inner : RegistryInner} {previous : Nat}
  {options : TransferOptions} {record : TaskRecord} {run : TaskRun}

/-- Only a task that was cancelled or has failed is retried, and it is the same transfer. -/
theorem retry_eq_ok (hrecord : inner.tasks.get? previous = some record)
    (h : (retry previous options inner).1 = .ok run) :
    (record.snapshot.state = .cancelled ∨ record.snapshot.state = .failed) ∧
      run.options = { options with resume := true } ∧
      run.transfer sources = record.snapshot.transfer sources := by
  unfold retry at h
  rw [hrecord] at h
  dsimp only at h
  split at h
  · cases h
  · next inner' hregister =>
    cases h
    refine ⟨?_, rfl, rfl⟩
    unfold registerRetry at hregister
    rw [hrecord] at hregister
    dsimp only at hregister
    split at hregister
    · assumption
    · cases hregister

theorem taskTransfer_wellPlaced (kind : TransferTaskKind) (source destination : String)
    (o : TransferOptions) : (taskTransfer sources kind source destination).WellPlaced o := by
  intro _ h
  have hlength : (destination ++ ".kaduox.part").length = destination.length :=
    congrArg String.length h
  rw [String.length_append] at hlength
  exact absurd hlength (Nat.ne_of_gt (Nat.lt_add_of_pos_right (by decide)))


/-! ## What the attempts before a retry leave -/

/-- The file to write to has been opened. -/
def FilePhase.opened : FilePhase → Bool
  | .waiting | .inspected _ _ => false
  | _ => true

section

variable {P : Type} [LinearOrder P] {o : TransferOptions} {job : FileTransfer P}
  {found : Option Object} {t files : Files P} {s : FileState P} {p : P} {emptied : Bool}

theorem harmless_of_bytesAt {bytes source : Bytes} (hbytes : bytesAt files p = some bytes)
    (hle : bytes.length ≤ source.length) : Harmless source (files.get? p) ↔ bytes <+: source := by
  constructor
  · exact fun h ↦ h bytes hbytes hle
  · intro h other hother _
    rw [bytesAt] at hbytes
    rw [hbytes] at hother
    cases hother
    exact h
/-- What an attempt that is not atomic and leaves no gap has made is harmless when it found something
harmless, or has emptied it. -/
theorem FileTransfer.OrderlyAttempt.harmless_iff (h : OrderlyAttempt o job t s) (hplain : o.atomic = false) :
    Harmless job.source (s.files.get? job.path) ↔
      Harmless job.source (t.get? job.path) ∨ (!o.resume && s.phase.opened) = true := by
  have hwork := h.attempt.work
  have hgapless := h.gapless
  rw [target, hplain, if_neg Bool.false_ne_true] at hwork hgapless
  have hkept : s.phase.opened = true → (job.kept o (t.get? job.path) <+: job.source ↔
      Harmless job.source (t.get? job.path) ∨ (!o.resume && s.phase.opened) = true) := by
    intro hopened
    rw [hopened, Bool.and_true]
    cases hresume : o.resume with
    | true =>
        rw [kept_prefix_iff hresume]
        simp
    | false =>
        rw [kept, hresume, if_neg Bool.false_ne_true]
        simp
  have hdone (hbytes : bytesAt s.files job.path =
      some (completed (job.kept o (t.get? job.path)) job.source)) :
      Harmless job.source (s.files.get? job.path) ↔
        job.kept o (t.get? job.path) <+: job.source := by
    rw [harmless_of_bytesAt hbytes (length_completed length_kept_le).le, ← continued_length,
      continued_prefix_iff]
  have hmode : ¬o.atomic = true := Bool.eq_false_iff.mp hplain
  cases hphase : s.phase with
  | waiting | inspected =>
      rw [hphase] at hwork
      simp only [WorkProgress, target, hplain, Bool.false_eq_true, if_false] at hwork
      simp only [FilePhase.opened, Bool.and_false, Bool.false_eq_true, or_false, hwork]
  | writing w =>
      obtain ⟨hkept_le, hreached, hbytes⟩ := hgapless w hphase
      rw [hphase] at hwork hkept
      have hanswered : w.answered ≤ job.total := (Nat.le_add_right _ _).trans hwork.2.1
      have hpos := hreached.trans hanswered
      rw [target, if_neg hmode] at hbytes
      rw [← hkept rfl, harmless_of_bytesAt hbytes ((length_continued hkept_le hpos).trans_le hpos),
        continued_prefix_iff]
  | closed =>
      rw [hphase] at hwork hkept
      rw [WorkProgress, target, if_neg hmode] at hwork
      rw [← hkept rfl, hdone hwork]
  | done =>
      rw [hphase] at hwork hkept
      have hbytes := hwork hplain
      rw [target, if_neg hmode] at hbytes
      rw [← hkept rfl, hdone hbytes]
  | stamped =>
      rw [hphase] at hwork
      exact absurd hwork.1 hmode
  | published | failed =>
      rw [hphase] at hwork
      exact absurd hwork hmode
/-- Attempts that are not atomic, each broken off, without gaps: the first with any options, the others
with `resume`. The flag tells whether one of them has emptied the destination. -/
inductive PlainAttempts (job : FileTransfer P) (t : Files P) : Bool → Files P → Prop
  | first {o : TransferOptions} {s : FileState P} (hplain : o.atomic = false)
      (h : OrderlyAttempt o job t s) : PlainAttempts job t (!o.resume && s.phase.opened) s.files
  | retried {o : TransferOptions} {emptied : Bool} {files : Files P} {s : FileState P}
      (hearlier : PlainAttempts job t emptied files) (hplain : o.atomic = false)
      (hresume : o.resume = true) (h : OrderlyAttempt o job files s) : PlainAttempts job t emptied s.files
theorem PlainAttempts.harmless_iff (h : PlainAttempts job t emptied files) :
    Harmless job.source (files.get? job.path) ↔
      Harmless job.source (t.get? job.path) ∨ emptied = true := by
  induction h with
  | first hplain h => exact OrderlyAttempt.harmless_iff h hplain
  | retried _ hplain hresume h ih =>
      rw [OrderlyAttempt.harmless_iff h hplain, hresume, Bool.not_true, Bool.false_and]
      simpa using ih

theorem PlainAttempts.frame (h : PlainAttempts job t emptied files) (hp : p ≠ job.path) :
    files.get? p = t.get? p := by
  have htarget {o : TransferOptions} (hplain : o.atomic = false) : p ≠ job.target o := by
    rw [target, hplain]
    exact hp
  induction h with
  | first hplain h => exact (OrderlyAttempt.attempt h).frame hp (htarget hplain)
  | retried _ hplain _ h ih => exact ((OrderlyAttempt.attempt h).frame hp (htarget hplain)).trans ih

/-- What a retry finds is harmless when it was so from the start, or has been emptied. -/
theorem PlainAttempts.harmless_target_iff (h : PlainAttempts job t emptied files)
    (hplaced : job.WellPlaced o) :
    Harmless job.source (files.get? (job.target o)) ↔
      Harmless job.source (t.get? (job.target o)) ∨ o.atomic = false ∧ emptied = true := by
  cases hatomic : o.atomic with
  | true =>
      rw [target, if_pos hatomic, h.frame (hplaced hatomic)]
      simp
  | false =>
      rw [target, if_neg (Bool.eq_false_iff.mp hatomic), h.harmless_iff]
      simp

end

/-! ## A destination of the length of the source -/

/-- A retry of an upload leaves a destination of the length of the source as it is. -/
theorem attempt_of_length {P : Type} [LinearOrder P] {o : TransferOptions} {job : FileTransfer P}
    {t : Files P} {object : Object} {bytes : Bytes} (hplain : o.atomic = false)
    (hresume : o.resume = true) (hdirection : job.direction = .upload)
    (hfound : t.get? job.path = some object) (hkind : object.kind = .regular bytes)
    (hlength : bytes.length = job.total) (htotal : job.total ≠ 0) :
    Attempt o job t ⟨t, .done⟩ := by
  have hinspect : job.inspect o t = some (.inspected job.total true) := by
    rw [inspect, if_neg (Bool.eq_false_iff.mp hplain), hfound]
    dsimp only
    rw [hkind]
    dsimp only
    rw [resumeOffset, hresume, Bool.not_true, if_neg Bool.false_ne_true, if_pos hlength.le, hlength]
  have hskip : job.skipped o = .done := by
    rw [skipped, if_neg (Bool.eq_false_iff.mp hplain), hdirection]
  have hinspected : Attempt o job t ⟨t, .inspected job.total true⟩ := by
    refine Reaches.start.next (e := .inspect) trivial ?_
    rw [step, request, hinspect]
    rfl
  refine Reaches.next (e := .skip) hinspected trivial ?_
  rw [step, request, if_pos ⟨rfl, htotal⟩, hskip]
  rfl

/-- A task that was cancelled is retried when there is room for it. -/
theorem retry_of_cancelled (hrecord : inner.tasks.get? previous = some record)
    (hstate : record.snapshot.state = .cancelled)
    (hconflict : inner.conflict record.snapshot.kind.direction record.snapshot.destination = false)
    (hroom : inner.tasks.size < inner.maxRetained) (hid : inner.nextId + 1 < 2 ^ 64) :
    (retry previous options inner).1 = .ok ⟨record.snapshot.kind, record.snapshot.source,
      record.snapshot.destination, { options with resume := true }⟩ := by
  have hcapacity : inner.makeCapacity = (.ok (), inner) := by
    unfold RegistryInner.makeCapacity
    exact if_pos hroom
  have hregister : (registerRetry previous inner).1 = .ok (.registered inner.nextId) := by
    unfold registerRetry
    rw [hrecord]
    dsimp only
    rw [if_pos (.inl hstate), registerLocked, hconflict, if_neg Bool.false_ne_true, hcapacity]
    dsimp only
    rw [if_pos hid]
  unfold retry
  rw [hrecord]
  dsimp only
  split
  · next e inner' h =>
    rw [h] at hregister
    cases hregister
  · rfl

/-- An upload that was cancelled. -/
def cancelledUpload : TaskRecord where
  snapshot := ⟨1, .uploadFile, "abc.txt", "/srv/abc.txt", .cancelled, true, none, none, none, none⟩
  cancelled := true

/-- A registry with nothing but that task. -/
def cancelledRegistry : RegistryInner := ⟨2, 4, .insert .empty 1 cancelledUpload, [1]⟩

/-- The options that the task was started with, and is retried with. -/
def plainOptions : TransferOptions := { TransferOptions.default with atomic := false }

/-- What is run when the task is retried. -/
def retriedUpload : TaskRun where
  kind := .uploadFile
  source := "abc.txt"
  destination := "/srv/abc.txt"
  options := { plainOptions with resume := true }

def abcBytes : Bytes := [97, 98, 99]
def xyzBytes : Bytes := [120, 121, 122]

/-- A server with one file. -/
def serverWith (bytes : Bytes) : Files String :=
  .insert .empty "/srv/abc.txt" ⟨.regular bytes, none, none⟩

theorem retry_cancelledRegistry :
    (retry 1 plainOptions cancelledRegistry).1 = .ok retriedUpload := by
  have hrecord : cancelledRegistry.tasks.get? 1 = some cancelledUpload := rfl
  exact retry_of_cancelled hrecord rfl (by decide) (by decide) (by decide)

theorem attempt_serverWith {bytes : Bytes} (hlength : bytes.length = 3) :
    Attempt retriedUpload.options (retriedUpload.transfer fun _ ↦ ⟨abcBytes, none, none⟩)
      (serverWith bytes) ⟨serverWith bytes, .done⟩ :=
  attempt_of_length rfl rfl rfl (SortedMap.get?_insert_self _ _ _) rfl hlength (by decide)

/-! ## The result -/

/-- A retry that ends well leaves the source at the destination if and only if the file that it
writes to (an atomic retry: its staging file) was harmless when it began. After attempts without gaps
it was so if and only if it was harmless before the task, or one of them has emptied it. -/
theorem retry_faithful_iff {files : Files String} {s : FileState String}
    (hrecord : inner.tasks.get? previous = some record)
    (hretry : (retry previous options inner).1 = .ok run)
    (hattempt : Attempt run.options (run.transfer sources) files s) (hdone : s.phase = .done) :
    (bytesAt s.files run.destination = some (sources run.source).bytes ↔
      Harmless (sources run.source).bytes
        (files.get? ((run.transfer sources).target run.options))) ∧
    ∀ t emptied, PlainAttempts (record.snapshot.transfer sources) t emptied files →
      (Harmless (sources run.source).bytes
          (files.get? ((run.transfer sources).target run.options)) ↔
        Harmless (sources run.source).bytes (t.get? ((run.transfer sources).target run.options)) ∨
          run.options.atomic = false ∧ emptied = true) := by
  obtain ⟨-, hoptions, hsame⟩ := retry_eq_ok hrecord hretry
  have hplaced : (run.transfer sources).WellPlaced run.options := taskTransfer_wellPlaced _ _ _ _
  have hresume : run.options.resume = true := by rw [hoptions]
  have hbytes := hattempt.bytes_of_done hplaced hdone
  rw [show (sources run.source).bytes = (run.transfer sources).source from rfl]
  constructor
  · rw [show run.destination = (run.transfer sources).path from rfl, hbytes, Option.some.injEq,
      completed_eq_iff, kept_prefix_iff hresume]
  · intro t emptied hearlier
    rw [← hsame] at hearlier
    exact hearlier.harmless_target_iff hplaced
/-- An upload over other bytes, cancelled with two of three bytes written and the third under way, and
completed by the retry. -/
theorem retry_faithful_abc :
    ∃ first last, PlainAttempts (cancelledUpload.snapshot.transfer fun _ ↦ ⟨abcBytes, none, none⟩)
        (serverWith xyzBytes) true first ∧ bytesAt first retriedUpload.destination = some [97, 98] ∧
      Attempt retriedUpload.options (retriedUpload.transfer fun _ ↦ ⟨abcBytes, none, none⟩) first
        ⟨last, .done⟩ ∧
      bytesAt last retriedUpload.destination = some abcBytes := by
  let first : FileState String := ⟨serverWith [97, 98], .writing ⟨2, [1], none⟩⟩
  have hfirst : OrderlyAttempt plainOptions (cancelledUpload.snapshot.transfer fun _ ↦ ⟨abcBytes, none, none⟩)
      (serverWith xyzBytes) first := Reaches.start.runChecked
    [.inspect, .create none none, .send 2, .send 1, .write none] rfl
  have hretried : Attempt retriedUpload.options
      (retriedUpload.transfer fun _ ↦ ⟨abcBytes, none, none⟩) first.files
      ⟨serverWith abcBytes, .done⟩ := Reaches.start.runEvents
    [.inspect, .create none none, .send 1, .write none, .close, .stamp] rfl
  have hearlier := PlainAttempts.first rfl hfirst
  have hrecord : cancelledRegistry.tasks.get? 1 = some cancelledUpload := rfl
  have hfaithful := retry_faithful_iff hrecord retry_cancelledRegistry hretried rfl
  refine ⟨first.files, serverWith abcBytes, hearlier, rfl, hretried, hfaithful.1.mpr ?_⟩
  exact (hfaithful.2 _ _ hearlier).mpr (.inr ⟨rfl, rfl⟩)

/-- The retry ends well and leaves what stood there, since that has the length of the source. -/
theorem retry_keeps_stale_bytes :
    PlainAttempts (cancelledUpload.snapshot.transfer fun _ ↦ ⟨abcBytes, none, none⟩)
        (serverWith xyzBytes) false (serverWith xyzBytes) ∧
      (retry 1 plainOptions cancelledRegistry).1 =
        .ok retriedUpload ∧
      Attempt retriedUpload.options (retriedUpload.transfer fun _ ↦ ⟨abcBytes, none, none⟩)
        (serverWith xyzBytes) ⟨serverWith xyzBytes, .done⟩ ∧
      bytesAt (serverWith xyzBytes) retriedUpload.destination = some xyzBytes ∧ xyzBytes ≠ abcBytes := by
  refine ⟨PlainAttempts.first (o := plainOptions) rfl .start,
    retry_cancelledRegistry, attempt_serverWith rfl, ?_, by decide⟩
  rw [bytesAt, serverWith, retriedUpload, SortedMap.get?_insert_self]
  rfl

end KaduoxSsh.Transfer
