import KaduoxSsh.Transfer.FileTransferRuns

/-!
# Transfers that come to their end

A transfer whose look-ups find nothing to refuse comes to its end when it has the files
for itself and the system refuses nothing: one write is enough.
-/

namespace KaduoxSsh.Transfer

open Resume

namespace FileTransfer

variable {P : Type} [LinearOrder P] {o : TransferOptions} {job : FileTransfer P}
  {found : Option Object} {t files files' : Files P} {s : FileState P} {p : P} {bytes : Bytes}

theorem OrderlyAttempt.request {phase phase' : FilePhase} {r : FileRequest}
    (h : OrderlyAttempt o job t ⟨files, phase⟩) (horderly : orderly phase r)
    (hrequest : job.request o files phase r = some (files', phase')) :
    OrderlyAttempt o job t ⟨files', phase'⟩ :=
  Reaches.next h horderly (by rw [step, hrequest]; rfl)

theorem get?_of_bytesAt (h : bytesAt t p = some bytes) :
    ∃ object, t.get? p = some object ∧ object.kind = .regular bytes := by
  obtain ⟨object, hobject, hbytes⟩ := Option.bind_eq_some_iff.mp h
  refine ⟨object, hobject, ?_⟩
  unfold Object.bytes? at hbytes
  split at hbytes
  · next hkind =>
    cases hbytes
    exact hkind
  · cases hbytes

theorem exists_stampAt (job : FileTransfer P) (h : bytesAt t p = some bytes) :
    ∃ t', job.stampAt t p = some t' := by
  obtain ⟨object, hobject, -⟩ := get?_of_bytesAt h
  unfold stampAt
  split
  · exact ⟨_, rfl⟩
  · rw [hobject]
    exact ⟨_, rfl⟩

theorem exists_publish (hpath : t.get? job.path = none) (hwork : bytesAt t job.work = some bytes) :
    ∃ t', job.publish t = some t' := by
  obtain ⟨object, hobject, hkind⟩ := get?_of_bytesAt hwork
  unfold publish
  rw [hpath, if_neg (not_not_intro rfl), hobject]
  cases job.direction with
  | upload => exact ⟨_, rfl⟩
  | download =>
      dsimp only
      rw [hkind]
      exact ⟨_, rfl⟩

theorem exists_write {pos count : Nat} {now : Option Nat}
    (h : bytesAt t (job.target o) = some bytes) : ∃ t', job.write o t pos count now = some t' := by
  obtain ⟨object, hobject, hkind⟩ := get?_of_bytesAt h
  unfold write
  rw [hobject]
  dsimp only
  rw [hkind]
  exact ⟨_, rfl⟩

/-- The look-ups find no file to write to, or a regular one. -/
theorem target_of_inspect {phase : FilePhase} (h : job.inspect o t = some phase) :
    t.get? (job.target o) = none ∨ ∃ bytes, bytesAt t (job.target o) = some bytes := by
  have hregular {p : P} {object : Object} {bytes : Bytes} (hobject : t.get? p = some object)
      (hkind : object.kind = .regular bytes) : bytesAt t p = some bytes := by
    rw [bytesAt, hobject, Option.bind_some, Object.bytes?, hkind]
  unfold inspect at h
  unfold target
  split at h
  · next hatomic =>
    rw [if_pos hatomic]
    split at h
    · cases h
    · split at h
      · next hnone => exact .inl hnone
      · next object hobject =>
        split at h
        · next bytes hkind => exact .inr ⟨bytes, hregular hobject hkind⟩
        · cases h
  · next hplain =>
    rw [if_neg hplain]
    split at h
    · next hnone => exact .inl hnone
    · next object hobject =>
      split at h
      · next bytes hkind => exact .inr ⟨bytes, hregular hobject hkind⟩
      · cases h

theorem exists_create {offset : Nat} {existing : Bool} (now mode : Option Nat)
    (hprogress : job.WorkProgress o found t (.inspected offset existing))
    (htarget : t.get? (job.target o) = none ∨ ∃ bytes, bytesAt t (job.target o) = some bytes) :
    ∃ t', job.create o t offset existing now mode = some t' := by
  obtain ⟨hfound, -, hexisting, -⟩ := hprogress
  unfold create
  rcases htarget with hnone | ⟨bytes, hbytes⟩
  · have hfalse : existing = false := by
      rw [← Bool.not_eq_true, hexisting, ← hfound, hnone]
      exact not_not_intro rfl
    rw [hnone, hfalse]
    exact ⟨_, if_neg (by simp)⟩
  · obtain ⟨object, hobject, hkind⟩ := get?_of_bytesAt hbytes
    have htrue : existing = true := by
      rw [hexisting, ← hfound, hobject]
      exact Option.some_ne_none _
    rw [hobject, htrue]
    dsimp only
    rw [hkind]
    dsimp only
    cases o.atomic with
    | true => exact ⟨_, rfl⟩
    | false =>
        by_cases hzero : offset = 0
        · exact ⟨_, if_pos hzero⟩
        · exact ⟨_, if_neg hzero⟩

/-! ## From phase to phase -/

/-- A transfer that has closed its file comes to its end. -/
theorem OrderlyAttempt.done_of_closed (h : OrderlyAttempt o job t ⟨files, .closed⟩)
    (hplaced : job.WellPlaced o) : ∃ files', OrderlyAttempt o job t ⟨files', .done⟩ := by
  have hwork : bytesAt files (job.target o) = _ := h.attempt.work
  cases hatomic : o.atomic with
  | false =>
      have hmode : ¬o.atomic = true := Bool.eq_false_iff.mp hatomic
      rw [target, if_neg hmode] at hwork
      obtain ⟨files', hstamp⟩ := exists_stampAt job hwork
      refine ⟨files', h.request (r := .stamp) rfl ?_⟩
      rw [FileTransfer.request, if_neg hmode, hstamp]
      rfl
  | true =>
      have hne := hplaced hatomic
      have hpath : files.get? job.path = none := h.attempt.path hatomic hne
      rw [target, if_pos hatomic] at hwork
      cases hdirection : job.direction with
      | upload =>
          obtain ⟨published, hpublish⟩ := exists_publish hpath hwork
          have hpublished : OrderlyAttempt o job t ⟨published, .published⟩ := by
            refine h.request (r := .publish) rfl ?_
            rw [FileTransfer.request, if_pos ⟨hatomic, hdirection⟩, hpublish]
            rfl
          obtain ⟨files', hstamp⟩ := exists_stampAt job (hpublished.attempt.path hatomic hne).1
          refine ⟨files', hpublished.request (r := .stamp) rfl ?_⟩
          rw [FileTransfer.request, hdirection]
          dsimp only
          rw [hstamp]
          rfl
      | download =>
          obtain ⟨stamped, hstamp⟩ := exists_stampAt job hwork
          have hstamped : OrderlyAttempt o job t ⟨stamped, .stamped⟩ := by
            refine h.request (r := .stamp) rfl ?_
            rw [FileTransfer.request, if_pos hatomic, hdirection]
            dsimp only
            rw [hstamp]
            rfl
          have hbytes := hstamped.attempt.work.2
          rw [target, if_pos hatomic] at hbytes
          obtain ⟨published, hpublish⟩ :=
            exists_publish (hstamped.attempt.path hatomic hne) hbytes
          have hpublished : OrderlyAttempt o job t ⟨published, .published⟩ := by
            refine hstamped.request (r := .publish) rfl ?_
            rw [FileTransfer.request, hpublish]
            rfl
          obtain ⟨object, hobject, -⟩ :=
            get?_of_bytesAt ((hpublished.attempt.path hatomic hne).2.2 hdirection)
          refine ⟨published.erase job.work, hpublished.request (r := .cleanUp) rfl ?_⟩
          rw [FileTransfer.request, if_pos ⟨hdirection, by rw [hobject]; exact Option.some_ne_none _⟩]
omit [LinearOrder P] in
theorem maxConcurrentWrites_pos (h : 0 < o.sftpWriteConcurrency) : 0 < job.maxConcurrentWrites o := by
  unfold maxConcurrentWrites
  cases job.direction with
  | upload => exact h
  | download => exact Nat.one_pos

/-- A transfer that has opened its file closes it after one write, or after none. -/
theorem OrderlyAttempt.closed_of_writing {offset : Nat}
    (h : OrderlyAttempt o job t ⟨files, .writing (.start offset)⟩)
    (hwrites : 0 < o.sftpWriteConcurrency) :
    ∃ files', OrderlyAttempt o job t ⟨files', .closed⟩ := by
  obtain ⟨-, hsent, hrefused⟩ := h.attempt.work
  have hoffset : offset ≤ job.total := hsent
  have hbytes : bytesAt files (job.target o) = _ := hrefused rfl
  rcases hoffset.eq_or_lt with htotal | hlt
  · refine ⟨files, h.request (r := .close) rfl ?_⟩
    exact if_pos ⟨rfl, rfl, htotal⟩
  · have hsent : OrderlyAttempt o job t
        ⟨files, .writing ⟨offset, [job.total - offset], none⟩⟩ := by
      have hroom : offset + (job.total - offset) ≤ job.total := (Nat.add_sub_of_le hoffset).le
      refine h.request (r := .send (job.total - offset)) rfl ?_
      rw [FileTransfer.request, send, if_pos ⟨Nat.sub_pos_of_lt hlt, hroom, maxConcurrentWrites_pos hwrites, .inl rfl⟩]
      rfl
    obtain ⟨written, hwrite⟩ : ∃ t', job.write o files offset (job.total - offset) none = some t' :=
      exists_write hbytes
    have hwritten : OrderlyAttempt o job t ⟨written, .writing ⟨job.total, [], none⟩⟩ := by
      refine hsent.request (r := .write none) rfl ?_
      rw [FileTransfer.request, carryOut]
      dsimp only
      rw [hwrite, Option.map_some, Option.map_some, Nat.add_sub_of_le hoffset]
    exact ⟨written, hwritten.request (r := .close) rfl (if_pos ⟨rfl, rfl, rfl⟩)⟩

/-- A transfer whose look-ups find nothing to refuse comes to its end. -/
theorem exists_done (hplaced : job.WellPlaced o) (hwrites : 0 < o.sftpWriteConcurrency)
    (hinspect : job.inspect o t ≠ none) : ∃ files, OrderlyAttempt o job t ⟨files, .done⟩ := by
  obtain ⟨phase, hphase⟩ := Option.ne_none_iff_exists'.mp hinspect
  obtain ⟨offset, existing, rfl, -⟩ := inspect_eq_some hphase
  have hinspected : OrderlyAttempt o job t ⟨t, .inspected offset existing⟩ := by
    refine OrderlyAttempt.request .start (r := .inspect) rfl ?_
    rw [FileTransfer.request, hphase]
    rfl
  by_cases hthere : offset = job.total ∧ job.total ≠ 0
  · have hskipped : OrderlyAttempt o job t ⟨t, job.skipped o⟩ :=
      hinspected.request (r := .skip) rfl (if_pos hthere)
    rcases skipped_eq o job with hclosed | hdone
    · exact (hclosed ▸ hskipped).done_of_closed hplaced
    · exact ⟨t, hdone ▸ hskipped⟩
  · obtain ⟨created, hcreate⟩ := exists_create none none hinspected.attempt.work
      (target_of_inspect hphase)
    have hwriting : OrderlyAttempt o job t ⟨created, .writing (.start offset)⟩ := by
      refine hinspected.request (r := .create none none) rfl ?_
      rw [FileTransfer.request, if_neg hthere, hcreate]
      rfl
    obtain ⟨files, hclosed⟩ := hwriting.closed_of_writing hwrites
    exact hclosed.done_of_closed hplaced

end FileTransfer

end KaduoxSsh.Transfer
