import KaduoxSsh.Transfer.FileTransfer

/-!
# How a transfer of one file goes on

What a transfer finds in the file that it writes to decides what it keeps, and that
decides what is there after each request (`WorkProgress`). The destination of an atomic
transfer is not there until it is published (`PathProgress`). Each of the two depends on
one of the two paths only, so that they hold also while others use other paths.
-/

namespace KaduoxSsh.Transfer

open Resume SortedMap Option

namespace FileTransfer

variable {P : Type} [LinearOrder P] (o : TransferOptions) (job : FileTransfer P)
  (found : Option Object)

def bytesAt (t : Files P) (p : P) : Option Bytes := (t.get? p).bind Object.bytes?

/-- The bytes of the file to write to that a transfer keeps. -/
def kept : Bytes :=
  if o.resume then
    match found.bind Object.bytes? with
    | some bytes => if bytes.length ≤ job.total then bytes else []
    | none => []
  else []

/-- The file that is written to, depending on what was found there. It is not known what a copy has
written once the server has refused some of it. -/
def WorkProgress (t : Files P) : FilePhase → Prop
  | .waiting => t.get? (job.target o) = found
  | .inspected offset existing =>
      t.get? (job.target o) = found ∧ offset = (job.kept o found).length ∧
        (existing = true ↔ found ≠ none) ∧
        (o.atomic = true → ∀ bytes, found.bind Object.bytes? = some bytes →
          job.kept o found = bytes)
  | .writing w =>
      (job.kept o found).length ≤ w.answered ∧ w.sent ≤ job.total ∧
        (w.refused = none → bytesAt t (job.target o) =
          some (continued (job.kept o found) job.source w.answered))
  | .closed => bytesAt t (job.target o) = some (completed (job.kept o found) job.source)
  | .stamped => o.atomic = true ∧
      bytesAt t (job.target o) = some (completed (job.kept o found) job.source)
  | .published | .failed => o.atomic = true
  | .done => o.atomic = false →
      bytesAt t (job.target o) = some (completed (job.kept o found) job.source)

/-- The file that a copy writes to has no gap: it goes as far as nothing has been refused. -/
def Gapless (t : Files P) (phase : FilePhase) : Prop :=
  ∀ w, phase = .writing w → (job.kept o found).length ≤ w.reached ∧ w.reached ≤ w.answered ∧
    bytesAt t (job.target o) = some (continued (job.kept o found) job.source w.reached)

/-- The destination of an atomic transfer, when nobody else uses it. -/
def PathProgress (t : Files P) : FilePhase → Prop
  | .waiting => True
  | .inspected _ _ | .writing _ | .closed | .stamped => t.get? job.path = none
  | .published => bytesAt t job.path = some (completed (job.kept o found) job.source) ∧
      (job.direction = .upload → t.get? job.work = none) ∧
      (job.direction = .download →
        bytesAt t job.work = some (completed (job.kept o found) job.source))
  | .done => bytesAt t job.path = some (completed (job.kept o found) job.source) ∧
      t.get? job.work = none
  | .failed => t.get? job.work = none ∧ (t.get? job.path = none ∨
      bytesAt t job.path = some (completed (job.kept o found) job.source))

/-- An upload that finds all its bytes in the destination leaves it as it is. -/
def Untouched : Prop :=
  o.atomic = false ∧ job.total ≠ 0 ∧ (job.kept o found).length = job.total

/-- An upload that has written anything takes over the times of its source. -/
def TimeProgress (t : Files P) : FilePhase → Prop
  | .waiting | .inspected _ _ | .failed => True
  | .writing _ | .closed | .stamped | .published => ¬job.Untouched o found
  | .done => (job.Untouched o found → t.get? job.path = found) ∧
      (¬job.Untouched o found → ∀ m, job.mtime = some m →
        (t.get? job.path).bind Object.mtime = some m)

variable {o job found} {t t' : Files P} {phase phase' : FilePhase} {r : FileRequest} {p q : P}
  {w w' : Window} {now : Option Nat} {rest : List Nat} {count : Nat} {existing : Bool}
  {offset : Nat}

theorem bytesAt_insert_self (object : Object) :
    bytesAt (t.insert p object) p = object.bytes? := by
  rw [bytesAt, get?_insert_self]
  rfl

theorem bytesAt_congr (h : t'.get? p = t.get? p) : bytesAt t' p = bytesAt t p := by
  rw [bytesAt, bytesAt, h]

omit [LinearOrder P] in
theorem length_kept_le : (job.kept o found).length ≤ job.total := by
  unfold kept
  split
  · split
    · split
      · assumption
      · exact Nat.zero_le _
    · exact Nat.zero_le _
  · exact Nat.zero_le _

omit [LinearOrder P] in
theorem kept_eq_nil_or (o : TransferOptions) (job : FileTransfer P) (found : Option Object) :
    job.kept o found = [] ∨ found.bind Object.bytes? = some (job.kept o found) := by
  unfold kept
  split
  · cases hbytes : found.bind Object.bytes? with
    | none => exact .inl rfl
    | some bytes =>
        dsimp only
        split
        · exact .inr rfl
        · exact .inl rfl
  · exact .inl rfl

omit [LinearOrder P] in
theorem kept_none : job.kept o none = [] := (kept_eq_nil_or o job none).resolve_right (by simp)

/-- Nothing but the beginning of the source is taken for it. -/
def Harmless (source : Bytes) (found : Option Object) : Prop :=
  ∀ bytes, found.bind Object.bytes? = some bytes → bytes.length ≤ source.length → bytes <+: source

omit [LinearOrder P] in
theorem kept_prefix_iff (hresume : o.resume = true) :
    job.kept o found <+: job.source ↔ Harmless job.source found := by
  rw [kept, if_pos hresume, Harmless]
  cases found.bind Object.bytes? with
  | none => exact ⟨fun _ _ h ↦ absurd h (by simp), fun _ ↦ List.nil_prefix⟩
  | some bytes =>
      simp only [Option.some.injEq, forall_eq']
      by_cases hle : bytes.length ≤ job.source.length
      · rw [if_pos (show bytes.length ≤ job.total from hle)]
        exact ⟨fun h _ ↦ h, fun h ↦ h hle⟩
      · rw [if_neg (show ¬bytes.length ≤ job.total from hle)]
        exact ⟨fun _ h ↦ absurd h hle, fun _ ↦ List.nil_prefix⟩

omit [LinearOrder P] in
theorem completed_kept_eq_iff : completed (job.kept o found) job.source = job.source ↔
    (o.resume = true → Harmless job.source found) := by
  rw [completed_eq_iff]
  cases hresume : o.resume with
  | true => exact (kept_prefix_iff hresume).trans (imp_iff_right rfl).symm
  | false =>
      refine iff_of_true ?_ nofun
      rw [kept, if_neg (by rw [hresume]; exact Bool.false_ne_true)]
      exact List.nil_prefix

omit [LinearOrder P] in
theorem resumeOffset_eq (bytes : Bytes) {object : Object} (h : object.bytes? = some bytes) :
    resumeOffset (some bytes.length) job.total o.resume = (job.kept o (some object)).length := by
  rw [resumeOffset, kept, bind_some, h]
  cases o.resume with
  | false => rfl
  | true =>
      simp only [Bool.not_true, Bool.false_eq_true, if_false, if_true]
      split <;> rfl

theorem inspect_progress (hwork : t.get? (job.target o) = found)
    (h : job.inspect o t = some phase) : job.WorkProgress o found t phase := by
  have hkind : ∀ {object : Object} {bytes : Bytes}, object.kind = .regular bytes →
      object.bytes? = some bytes := fun hkind ↦ by rw [Object.bytes?, hkind]
  unfold inspect at h
  split at h
  · next hatomic =>
    have htarget : job.target o = job.work := if_pos hatomic
    rw [htarget] at hwork
    rw [hwork] at h
    split at h
    · cases h
    · split at h
      · cases h
        refine ⟨htarget ▸ hwork, by rw [kept_none]; rfl, by simp, fun _ bytes hbytes ↦ ?_⟩
        cases hbytes
      · next object =>
        split at h
        · next bytes hbytes =>
          split at h
          · cases h
          · next hresume =>
            split at h
            · cases h
            · next hlong =>
              cases h
              have hkept : job.kept o (some object) = bytes := by
                rw [kept, if_pos (by simpa using hresume), bind_some, hkind hbytes]
                exact if_pos (Nat.le_of_not_lt hlong)
              refine ⟨htarget ▸ hwork, by rw [hkept], by simp, fun _ other hother ↦ ?_⟩
              rw [bind_some, hkind hbytes] at hother
              exact hkept.trans (Option.some.inj hother)
        · cases h
  · next hatomic =>
    have htarget : job.target o = job.path := if_neg hatomic
    rw [htarget] at hwork
    rw [hwork] at h
    split at h
    · cases h
      refine ⟨htarget ▸ hwork, ?_, by simp, fun h ↦ absurd h hatomic⟩
      rw [kept_none, resumeOffset]
      split <;> rfl
    · next object =>
      split at h
      · next bytes hbytes =>
        cases h
        refine ⟨htarget ▸ hwork, resumeOffset_eq bytes (hkind hbytes), by simp,
          fun h ↦ absurd h hatomic⟩
      · cases h

omit [LinearOrder P] in
theorem skipped_eq (o : TransferOptions) (job : FileTransfer P) :
    job.skipped o = .closed ∨ job.skipped o = .done := by
  unfold skipped
  split
  · exact .inl rfl
  · split
    · exact .inr rfl
    · exact .inl rfl

/-- The look-ups find no destination of an atomic transfer. -/
theorem inspect_eq_some (h : job.inspect o t = some phase) : ∃ offset existing,
    phase = .inspected offset existing ∧ (o.atomic = true → t.get? job.path = none) := by
  unfold inspect at h
  split at h
  · split at h
    · cases h
    · next hpath =>
      rw [not_not] at hpath
      split at h
      · cases h
        exact ⟨_, _, rfl, fun _ ↦ hpath⟩
      · split at h
        · split at h
          · cases h
          · split at h
            · cases h
            · cases h
              exact ⟨_, _, rfl, fun _ ↦ hpath⟩
        · cases h
  · next hplain =>
    split at h
    · cases h
      exact ⟨_, _, rfl, fun hatomic ↦ absurd hatomic hplain⟩
    · split at h
      · cases h
        exact ⟨_, _, rfl, fun hatomic ↦ absurd hatomic hplain⟩
      · cases h

omit [LinearOrder P] in
/-- A transfer that keeps as much as there is has found all of it. -/
theorem completed_of_length (hlength : (job.kept o found).length = job.total) (htotal : job.total ≠ 0) :
    found.bind Object.bytes? = some (completed (job.kept o found) job.source) := by
  rw [completed, hlength, total, List.drop_length, List.append_nil]
  refine (kept_eq_nil_or o job found).resolve_left fun hnil ↦ htotal ?_
  rw [← hlength, hnil]
  rfl

theorem skip_progress (hprogress : job.WorkProgress o found t (.inspected offset existing))
    (hoffset : offset = job.total) (htotal : job.total ≠ 0) :
    job.WorkProgress o found t (job.skipped o) := by
  obtain ⟨hwork, hkept, -, -⟩ := hprogress
  have hbytes : bytesAt t (job.target o) = some (completed (job.kept o found) job.source) := by
    rw [bytesAt, hwork]
    exact completed_of_length (hkept.symm.trans hoffset) htotal
  unfold skipped
  split
  · exact hbytes
  · split
    · exact fun _ ↦ hbytes
    · exact hbytes

/-- A file that has been opened holds what is kept. -/
theorem bytesAt_create {now mode : Option Nat}
    (hprogress : job.WorkProgress o found t (.inspected offset existing))
    (h : job.create o t offset existing now mode = some t') :
    bytesAt t' (job.target o) = some (job.kept o found) := by
  obtain ⟨hwork, rfl, hexisting, hatomic⟩ := hprogress
  unfold create at h
  rw [hwork] at h
  split at h
  · split at h
    · cases h
    · cases h
      rw [bytesAt_insert_self, kept_none]
      rfl
  · next object =>
    split at h
    · next bytes hkind =>
      have hbytes : object.bytes? = some bytes := by rw [Object.bytes?, hkind]
      split at h
      · next hmode =>
        split at h
        · cases h
          rw [bytesAt, hwork, bind_some, hbytes, hatomic hmode bytes hbytes]
        · cases h
      · split at h
        · next hzero =>
          cases h
          rw [bytesAt_insert_self, List.eq_nil_of_length_eq_zero hzero]
          rfl
        · next hzero =>
          cases h
          rw [bytesAt, hwork]
          exact (kept_eq_nil_or o job (some object)).resolve_left fun hnil ↦ hzero (by rw [hnil]; rfl)
    · cases h

theorem bytesAt_write {pos count : Nat}
    (hbytes : bytesAt t (job.target o) = some (continued (job.kept o found) job.source pos))
    (hkept : (job.kept o found).length ≤ pos) (hcount : pos + count ≤ job.total)
    (h : job.write o t pos count now = some t') :
    bytesAt t' (job.target o) = some (continued (job.kept o found) job.source (pos + count)) := by
  unfold write at h
  split at h
  · next object hobject =>
    split at h
    · next bytes hkind =>
      cases h
      rw [bytesAt, hobject, bind_some, Object.bytes?, hkind, Option.some.injEq] at hbytes
      rw [bytesAt_insert_self, hbytes]
      exact congrArg some (overwrite_continued hkept hcount)
    · cases h
  · cases h

omit [LinearOrder P] in
theorem send_eq_some (h : job.send o w count = some w') :
    w' = { w with outstanding := w.outstanding ++ [count] } ∧ w'.sent ≤ job.total := by
  unfold send at h
  split at h
  · next hroom =>
    cases h
    refine ⟨rfl, ?_⟩
    rw [Window.sent, List.sum_append, List.sum_singleton, ← Nat.add_assoc]
    exact hroom.2.1
  · cases h

theorem carryOut_eq_some (h : job.carryOut o t w now = some (t', w')) :
    ∃ count rest, w.outstanding = count :: rest ∧
      w' = { w with answered := w.answered + count, outstanding := rest } ∧
      job.write o t w.answered count now = some t' := by
  unfold carryOut at h
  split at h
  · cases h
  · next count rest houtstanding =>
    obtain ⟨t₁, ht₁, heq⟩ := map_eq_some_iff.mp h
    cases heq
    exact ⟨count, rest, houtstanding, rfl, ht₁⟩

theorem refuse_eq_some {done : Nat} (h : job.refuse o t w done now = some (t', w')) :
    ∃ count rest, w.outstanding = count :: rest ∧ done ≤ count ∧
      w' = ⟨w.answered + count, rest, some (w.refused.getD (w.answered + done))⟩ ∧
      (done = 0 ∧ t' = t ∨ done ≠ 0 ∧ job.write o t w.answered done now = some t') := by
  unfold refuse at h
  split at h
  · cases h
  · next count rest houtstanding =>
    split at h
    · next hdone =>
      obtain ⟨t₁, ht₁, heq⟩ := map_eq_some_iff.mp h
      cases heq
      refine ⟨count, rest, houtstanding, hdone, rfl, ?_⟩
      split at ht₁
      · next hzero =>
        cases ht₁
        exact .inl ⟨hzero, rfl⟩
      · next hsome => exact .inr ⟨hsome, ht₁⟩
    · cases h

omit [LinearOrder P] in
/-- Answers do not change what has been handed over. -/
theorem sent_answered {refused : Option Nat} (houtstanding : w.outstanding = count :: rest) :
    Window.sent ⟨w.answered + count, rest, refused⟩ = w.sent := by
  rw [Window.sent, Window.sent, houtstanding, List.sum_cons, Nat.add_assoc]

/-- Stamping changes neither kinds nor bytes. -/
theorem bytesAt_stampAt (h : job.stampAt t p = some t') (q : P) : bytesAt t' q = bytesAt t q := by
  unfold stampAt at h
  split at h
  · cases h
    rfl
  · obtain ⟨object, hobject, rfl⟩ := map_eq_some_iff.mp h
    by_cases hq : q = p
    · subst hq
      rw [bytesAt_insert_self, bytesAt, hobject]
      rfl
    · exact bytesAt_congr (get?_insert_of_ne _ _ hq)

theorem mtime_stampAt (h : job.stampAt t p = some t') {m : Nat} (hm : job.mtime = some m) :
    (t'.get? p).bind Object.mtime = some m := by
  rw [stampAt, hm, if_neg (fun hnone ↦ some_ne_none m hnone.1)] at h
  obtain ⟨object, -, rfl⟩ := map_eq_some_iff.mp h
  rw [get?_insert_self]
  rfl

theorem get?_stampAt_of_ne (h : job.stampAt t p = some t') (hq : q ≠ p) : t'.get? q = t.get? q := by
  unfold stampAt at h
  split at h
  · cases h
    rfl
  · obtain ⟨object, hobject, rfl⟩ := map_eq_some_iff.mp h
    exact get?_insert_of_ne _ _ hq

/-- What is published is what stands in the staging file. -/
theorem publish_eq_some (h : job.publish t = some t') : t.get? job.path = none ∧
    t'.get? job.path = t.get? job.work ∧ t.get? job.work ≠ none ∧
    (∀ q, q ≠ job.path → q ≠ job.work → t'.get? q = t.get? q) ∧
    (job.work ≠ job.path → (job.direction = .upload → t'.get? job.work = none) ∧
      (job.direction = .download → t'.get? job.work = t.get? job.work)) := by
  unfold publish at h
  split at h
  · cases h
  · next hpath =>
    rw [not_not] at hpath
    split at h
    · cases h
    · next object hdirection hwork =>
      cases h
      refine ⟨hpath, ?_, by rw [hwork]; exact some_ne_none _, fun q hq hq' ↦ ?_,
        fun hne ↦ ⟨fun _ ↦ ?_, fun hdownload ↦ ?_⟩⟩
      · rw [get?_insert_self, hwork]
      · rw [get?_insert_of_ne _ _ hq, get?_erase, if_neg hq']
      · rw [get?_insert_of_ne _ _ hne, get?_erase, if_pos rfl]
      · rw [hdirection] at hdownload
        cases hdownload
    · next object hdirection hwork =>
      split at h
      · cases h
        refine ⟨hpath, ?_, by rw [hwork]; exact some_ne_none _, fun q hq _ ↦ ?_,
          fun hne ↦ ⟨fun hupload ↦ ?_, fun _ ↦ ?_⟩⟩
        · rw [get?_insert_self, hwork]
        · exact get?_insert_of_ne _ _ hq
        · rw [hdirection] at hupload
          cases hupload
        · exact get?_insert_of_ne _ _ hne
      · cases h


/-- What a request does, one case for each. -/
inductive Requested (o : TransferOptions) (job : FileTransfer P) (t : Files P) :
    FilePhase → FileRequest → Files P → FilePhase → Prop
  | inspect {phase : FilePhase} (h : job.inspect o t = some phase) :
      Requested o job t .waiting .inspect t phase
  | skip {offset : Nat} {existing : Bool} (hoffset : offset = job.total) (htotal : job.total ≠ 0) :
      Requested o job t (.inspected offset existing) .skip t (job.skipped o)
  | create {offset : Nat} {existing : Bool} {now mode : Option Nat} {t' : Files P}
      (hoffset : ¬(offset = job.total ∧ job.total ≠ 0))
      (h : job.create o t offset existing now mode = some t') :
      Requested o job t (.inspected offset existing) (.create now mode) t'
        (.writing (.start offset))
  | send {w w' : Window} {count : Nat} (h : job.send o w count = some w') :
      Requested o job t (.writing w) (.send count) t (.writing w')
  | write {w w' : Window} {now : Option Nat} {t' : Files P}
      (h : job.carryOut o t w now = some (t', w')) :
      Requested o job t (.writing w) (.write now) t' (.writing w')
  | refuse {w w' : Window} {done : Nat} {now : Option Nat} {t' : Files P}
      (h : job.refuse o t w done now = some (t', w')) :
      Requested o job t (.writing w) (.refuse done now) t' (.writing w')
  | close {w : Window} (hrefused : w.refused = none) (hanswered : w.answered = job.total) :
      Requested o job t (.writing w) .close t .closed
  | stampPath {t' : Files P} (hatomic : o.atomic = false) (h : job.stampAt t job.path = some t') :
      Requested o job t .closed .stamp t' .done
  | stampWork {t' : Files P} (hatomic : o.atomic = true) (hdirection : job.direction = .download)
      (h : job.stampAt t job.work = some t') : Requested o job t .closed .stamp t' .stamped
  | publish {phase : FilePhase} {t' : Files P}
      (hphase : phase = .closed ∧ o.atomic = true ∨ phase = .stamped)
      (h : job.publish t = some t') : Requested o job t phase .publish t' .published
  | stampPublished {t' : Files P} (hdirection : job.direction = .upload)
      (h : job.stampAt t job.path = some t') : Requested o job t .published .stamp t' .done
  | cleanUp (hdirection : job.direction = .download) :
      Requested o job t .published .cleanUp (t.erase job.work) .done
  | abandon {phase : FilePhase}
      (hphase : (∃ w, phase = .writing w) ∨ phase = .stamped ∨ phase = .published)
      (hatomic : o.atomic = true) (hresume : o.resume = false) :
      Requested o job t phase .abandon (t.erase job.work) .failed

theorem requested (h : job.request o t phase r = some (t', phase')) :
    Requested o job t phase r t' phase' := by
  have habandon (hphase : (∃ w, phase = .writing w) ∨ phase = .stamped ∨ phase = .published)
      (h : (if job.direction = .download ∧ o.atomic ∧ !o.resume
        then some (t.erase job.work, FilePhase.failed) else none) = some (t', phase')) :
      Requested o job t phase .abandon t' phase' := by
    split at h
    · next hmode =>
      cases h
      exact .abandon hphase hmode.2.1 (by simpa using hmode.2.2)
    · cases h
  unfold request at h
  split at h
  · obtain ⟨phase₁, hphase, heq⟩ := map_eq_some_iff.mp h
    cases heq
    exact .inspect hphase
  · split at h
    · next hoffset =>
      cases h
      exact .skip hoffset.1 hoffset.2
    · cases h
  · split at h
    · cases h
    · next hoffset =>
      obtain ⟨t₁, ht₁, heq⟩ := map_eq_some_iff.mp h
      cases heq
      exact .create hoffset ht₁
  · obtain ⟨w', hw', heq⟩ := map_eq_some_iff.mp h
    cases heq
    exact .send hw'
  · obtain ⟨⟨t₁, w'⟩, hnext, heq⟩ := map_eq_some_iff.mp h
    cases heq
    exact .write hnext
  · obtain ⟨⟨t₁, w'⟩, hnext, heq⟩ := map_eq_some_iff.mp h
    cases heq
    exact .refuse hnext
  · split at h
    · next hclose =>
      cases h
      exact .close hclose.2.1 hclose.2.2
    · cases h
  · split at h
    · next hatomic =>
      split at h
      · cases h
      · next hdirection =>
        obtain ⟨t₁, ht₁, heq⟩ := map_eq_some_iff.mp h
        cases heq
        exact .stampWork hatomic hdirection ht₁
    · next hatomic =>
      obtain ⟨t₁, ht₁, heq⟩ := map_eq_some_iff.mp h
      cases heq
      exact .stampPath (Bool.eq_false_iff.mpr hatomic) ht₁
  · split at h
    · next hmode =>
      obtain ⟨t₁, ht₁, heq⟩ := map_eq_some_iff.mp h
      cases heq
      exact .publish (.inl ⟨rfl, hmode.1⟩) ht₁
    · cases h
  · obtain ⟨t₁, ht₁, heq⟩ := map_eq_some_iff.mp h
    cases heq
    exact .publish (.inr rfl) ht₁
  · split at h
    · next hdirection =>
      obtain ⟨t₁, ht₁, heq⟩ := map_eq_some_iff.mp h
      cases heq
      exact .stampPublished hdirection ht₁
    · cases h
  · split at h
    · next hmode =>
      cases h
      exact .cleanUp hmode.1
    · cases h
  · exact habandon (.inl ⟨_, rfl⟩) h
  · exact habandon (.inr (.inl rfl)) h
  · exact habandon (.inr (.inr rfl)) h
  · cases h


theorem get?_create_of_ne {now mode : Option Nat}
    (h : job.create o t offset existing now mode = some t') (hq : q ≠ job.target o) :
    t'.get? q = t.get? q := by
  unfold create at h
  split at h
  · split at h
    · cases h
    · cases h
      exact get?_insert_of_ne _ _ hq
  · split at h
    · split at h
      · split at h
        · cases h
          rfl
        · cases h
      · split at h
        · cases h
          exact get?_insert_of_ne _ _ hq
        · cases h
          rfl
    · cases h

theorem get?_write_of_ne {pos count : Nat} (h : job.write o t pos count now = some t')
    (hq : q ≠ job.target o) : t'.get? q = t.get? q := by
  unfold write at h
  split at h
  · split at h
    · cases h
      exact get?_insert_of_ne _ _ hq
    · cases h
  · cases h

theorem get?_carryOut_of_ne (h : job.carryOut o t w now = some (t', w')) (hq : q ≠ job.target o) :
    t'.get? q = t.get? q := by
  obtain ⟨count, rest, -, -, hwrite⟩ := carryOut_eq_some h
  exact get?_write_of_ne hwrite hq

theorem get?_refuse_of_ne {done : Nat} (h : job.refuse o t w done now = some (t', w'))
    (hq : q ≠ job.target o) : t'.get? q = t.get? q := by
  obtain ⟨count, rest, -, -, -, ⟨-, rfl⟩ | ⟨-, hwrite⟩⟩ := refuse_eq_some h
  · rfl
  · exact get?_write_of_ne hwrite hq

/-- No request takes a transfer back to its beginning. -/
theorem ne_waiting_of_request (h : job.request o t phase r = some (t', phase')) :
    phase' ≠ .waiting := by
  replace h := requested h
  cases h with
  | inspect h =>
      obtain ⟨offset, existing, rfl, -⟩ := inspect_eq_some h
      exact FilePhase.noConfusion
  | skip => rcases skipped_eq o job with h | h <;> exact h ▸ FilePhase.noConfusion
  | create | send | write | refuse | close | stampPath | stampWork | publish | stampPublished
  | cleanUp | abandon => exact FilePhase.noConfusion

/-- A request changes nothing but the destination and the file that is written to. -/
theorem request_frame (hprogress : job.WorkProgress o found t phase)
    (h : job.request o t phase r = some (t', phase')) (hpath : q ≠ job.path)
    (htarget : q ≠ job.target o) : t'.get? q = t.get? q := by
  have hwork (hatomic : o.atomic = true) : q ≠ job.work := by
    rw [target, if_pos hatomic] at htarget
    exact htarget
  replace h := requested h
  cases h with
  | inspect | skip | send | close => rfl
  | create _ h => exact get?_create_of_ne h htarget
  | write h => exact get?_carryOut_of_ne h htarget
  | refuse h => exact get?_refuse_of_ne h htarget
  | stampPath _ h => exact get?_stampAt_of_ne h hpath
  | stampWork hatomic _ h => exact get?_stampAt_of_ne h (hwork hatomic)
  | publish hphase h =>
      refine (publish_eq_some h).2.2.2.1 q hpath (hwork ?_)
      obtain ⟨rfl, hatomic⟩ | rfl := hphase
      · exact hatomic
      · exact hprogress.1
  | stampPublished _ h => exact get?_stampAt_of_ne h hpath
  | cleanUp => rw [get?_erase, if_neg (hwork hprogress)]
  | abandon _ hatomic => rw [get?_erase, if_neg (hwork hatomic)]

theorem create_progress {now mode : Option Nat}
    (hprogress : job.WorkProgress o found t (.inspected offset existing))
    (h : job.create o t offset existing now mode = some t') :
    job.WorkProgress o found t' (.writing (.start offset)) := by
  have hoffset : offset = (job.kept o found).length := hprogress.2.1
  refine ⟨hoffset.ge, hoffset.trans_le length_kept_le, fun _ ↦ ?_⟩
  rw [bytesAt_create hprogress h, Window.start, hoffset, continued_kept]

omit [LinearOrder P] in
theorem answered_le (hsent : w.sent ≤ job.total) (houtstanding : w.outstanding = count :: rest) :
    w.answered + count ≤ job.total := by
  rw [Window.sent, houtstanding, List.sum_cons] at hsent
  omega

theorem write_progress (hprogress : job.WorkProgress o found t (.writing w))
    (houtstanding : w.outstanding = count :: rest)
    (h : job.write o t w.answered count now = some t') :
    job.WorkProgress o found t' (.writing ⟨w.answered + count, rest, w.refused⟩) := by
  obtain ⟨hkept, hsent, hbytes⟩ := hprogress
  exact ⟨Nat.le_add_right_of_le hkept, (sent_answered houtstanding).trans_le hsent,
    fun hrefused ↦ bytesAt_write (hbytes hrefused) hkept (answered_le hsent houtstanding) h⟩

/-- Each request takes the file that is written to where the next phase says. -/
theorem request_work (hprogress : job.WorkProgress o found t phase)
    (h : job.request o t phase r = some (t', phase')) : job.WorkProgress o found t' phase' := by
  replace h := requested h
  cases h with
  | inspect h => exact inspect_progress hprogress h
  | skip hoffset htotal => exact skip_progress hprogress hoffset htotal
  | create _ h => exact create_progress hprogress h
  | send h =>
      obtain ⟨rfl, hsent⟩ := send_eq_some h
      exact ⟨hprogress.1, hsent, hprogress.2.2⟩
  | write h =>
      obtain ⟨count, rest, houtstanding, rfl, hwrite⟩ := carryOut_eq_some h
      exact write_progress hprogress houtstanding hwrite
  | refuse h =>
      obtain ⟨count, rest, houtstanding, -, rfl, -⟩ := refuse_eq_some h
      exact ⟨Nat.le_add_right_of_le hprogress.1,
        (sent_answered houtstanding).trans_le hprogress.2.1, by simp⟩
  | close hrefused hanswered =>
      have hbytes := hprogress.2.2 hrefused
      rw [hanswered, total, continued_length] at hbytes
      exact hbytes
  | stampPath hatomic h => exact fun _ ↦ (bytesAt_stampAt h _).trans hprogress
  | stampWork hatomic _ h => exact ⟨hatomic, (bytesAt_stampAt h _).trans hprogress⟩
  | publish hphase h =>
      obtain ⟨rfl, hatomic⟩ | rfl := hphase
      · exact hatomic
      · exact hprogress.1
  | stampPublished | cleanUp =>
      intro hplain
      rw [WorkProgress, hplain] at hprogress
      cases hprogress
  | abandon _ hatomic => exact hatomic

/-- Each request takes the destination of an atomic transfer where the next phase says. -/
theorem request_path (hatomic : o.atomic = true) (hne : job.work ≠ job.path)
    (hwork : job.WorkProgress o found t phase) (hprogress : job.PathProgress o found t phase)
    (h : job.request o t phase r = some (t', phase')) : job.PathProgress o found t' phase' := by
  have htarget : job.target o = job.work := if_pos hatomic
  have hpath : job.path ≠ job.target o := htarget ▸ hne.symm
  replace h := requested h
  cases h with
  | inspect h =>
      obtain ⟨offset, existing, rfl, hnone⟩ := inspect_eq_some h
      exact hnone hatomic
  | skip =>
      unfold skipped
      rw [if_pos hatomic]
      exact hprogress
  | create _ h => exact (get?_create_of_ne h hpath).trans hprogress
  | write h => exact (get?_carryOut_of_ne h hpath).trans hprogress
  | refuse h => exact (get?_refuse_of_ne h hpath).trans hprogress
  | send | close => exact hprogress
  | stampPath hplain =>
      rw [hatomic] at hplain
      cases hplain
  | stampWork _ _ h => exact (get?_stampAt_of_ne h hne.symm).trans hprogress
  | publish hphase h =>
      have hbytes : bytesAt t job.work = some (completed (job.kept o found) job.source) := by
        rw [← htarget]
        obtain ⟨rfl, -⟩ | rfl := hphase
        · exact hwork
        · exact hwork.2
      obtain ⟨-, hpublished, -, -, hstaging⟩ := publish_eq_some h
      exact ⟨by rw [bytesAt, hpublished]; exact hbytes, (hstaging hne).1,
        fun hdownload ↦ (bytesAt_congr ((hstaging hne).2 hdownload)).trans hbytes⟩
  | stampPublished hdirection h =>
      exact ⟨(bytesAt_stampAt h _).trans hprogress.1,
        (get?_stampAt_of_ne h hne).trans (hprogress.2.1 hdirection)⟩
  | cleanUp =>
      refine ⟨?_, by rw [get?_erase, if_pos rfl]⟩
      exact (bytesAt_congr (by rw [get?_erase, if_neg hne.symm])).trans hprogress.1
  | abandon hphase =>
      have hkept : (t.erase job.work).get? job.path = t.get? job.path := by
        rw [get?_erase, if_neg hne.symm]
      refine ⟨by rw [get?_erase, if_pos rfl], ?_⟩
      obtain ⟨w, rfl⟩ | rfl | rfl := hphase
      · exact .inl (hkept.trans hprogress)
      · exact .inl (hkept.trans hprogress)
      · exact .inr ((bytesAt_congr hkept).trans hprogress.1)

/-- Each request of an upload takes the times of the destination where the next phase says. -/
theorem request_time (hupload : job.direction = .upload) (hwork : job.WorkProgress o found t phase)
    (hprogress : job.TimeProgress o found t phase)
    (h : job.request o t phase r = some (t', phase')) : job.TimeProgress o found t' phase' := by
  replace h := requested h
  cases h with
  | inspect h =>
      obtain ⟨offset, existing, rfl, -⟩ := inspect_eq_some h
      trivial
  | skip hoffset htotal =>
      obtain ⟨hfound, hkept, -, -⟩ := hwork
      unfold skipped
      split
      · next hatomic =>
        exact fun huntouched ↦ absurd (hatomic.symm.trans huntouched.1) Bool.noConfusion
      · next hplain =>
        rw [hupload]
        refine ⟨fun _ ↦ ?_, fun hnot ↦ absurd ?_ hnot⟩
        · rw [← hfound, target, if_neg hplain]
        · exact ⟨Bool.eq_false_iff.mpr hplain, htotal, hkept.symm.trans hoffset⟩
  | create hoffset =>
      exact fun huntouched ↦ hoffset ⟨hwork.2.1.trans huntouched.2.2, huntouched.2.1⟩
  | send | write | refuse | close => exact hprogress
  | publish hphase =>
      obtain ⟨rfl, -⟩ | rfl := hphase
      · exact hprogress
      · exact hprogress
  | stampPath _ h | stampPublished _ h =>
      exact ⟨fun huntouched ↦ absurd huntouched hprogress, fun _ m hm ↦ mtime_stampAt h hm⟩
  | stampWork _ hdirection | cleanUp hdirection =>
      rw [hupload] at hdirection
      cases hdirection
  | abandon => trivial

/-- Nothing is written behind bytes that the server has refused. -/
def orderly : FilePhase → FileRequest → Bool
  | .writing w, .write _ => w.refused.isNone
  | .writing w, .refuse done _ => w.refused.isNone || done == 0
  | _, _ => true

theorem write_gapless (hprogress : job.WorkProgress o found t (.writing w))
    (horderly : orderly (.writing w) (.write now)) (houtstanding : w.outstanding = count :: rest)
    (h : job.write o t w.answered count now = some t') :
    job.Gapless o found t' (.writing ⟨w.answered + count, rest, w.refused⟩) := by
  have hrefused : w.refused = none := isNone_iff_eq_none.mp horderly
  have hwritten := write_progress hprogress houtstanding h
  rintro _ ⟨⟩
  rw [Window.reached, hrefused, getD_none]
  exact ⟨hwritten.1, le_rfl, hwritten.2.2 hrefused⟩

theorem refuse_gapless {count done : Nat} (hprogress : job.WorkProgress o found t (.writing w))
    (hgapless : job.Gapless o found t (.writing w))
    (horderly : orderly (.writing w) (.refuse done now))
    (houtstanding : w.outstanding = count :: rest) (hdone : done ≤ count)
    (h : done = 0 ∧ t' = t ∨ done ≠ 0 ∧ job.write o t w.answered done now = some t') :
    job.Gapless o found t'
      (.writing ⟨w.answered + count, rest, some (w.refused.getD (w.answered + done))⟩) := by
  obtain ⟨hkept, hle, hbytes⟩ := hgapless w rfl
  rintro _ ⟨⟩
  rw [Window.reached, getD_some]
  cases hrefused : w.refused with
  | some pos =>
      -- The copy has got as far as it can, and the file stays as it is.
      rw [Window.reached, hrefused, getD_some] at hkept hle hbytes
      have hnone : done = 0 := by simpa [orderly, hrefused] using horderly
      refine ⟨hkept, Nat.le_add_right_of_le hle, ?_⟩
      rcases h with ⟨-, rfl⟩ | ⟨hsome, -⟩
      · exact hbytes
      · exact absurd hnone hsome
  | none =>
      rw [Window.reached, hrefused, getD_none] at hkept hbytes
      have hanswered := answered_le hprogress.2.1 houtstanding
      refine ⟨Nat.le_add_right_of_le hkept, Nat.add_le_add_left hdone _, ?_⟩
      rw [getD_none]
      rcases h with ⟨rfl, rfl⟩ | ⟨-, h⟩
      · exact hbytes
      · exact bytesAt_write hbytes hkept ((Nat.add_le_add_left hdone _).trans hanswered) h

/-- A request that keeps to that makes no gap. -/
theorem request_gapless (hprogress : job.WorkProgress o found t phase)
    (hgapless : job.Gapless o found t phase) (horderly : orderly phase r)
    (h : job.request o t phase r = some (t', phase')) : job.Gapless o found t' phase' := by
  replace h := requested h
  cases h with
  | inspect h =>
      obtain ⟨offset, existing, rfl, -⟩ := inspect_eq_some h
      exact fun w hw ↦ FilePhase.noConfusion hw
  | skip =>
      intro w hw
      rcases skipped_eq o job with h | h <;> rw [h] at hw <;> cases hw
  | create _ h =>
      have hoffset : _ = (job.kept o found).length := hprogress.2.1
      rintro _ ⟨⟩
      refine ⟨hoffset.ge, le_rfl, ?_⟩
      rw [bytesAt_create hprogress h, Window.start, hoffset, Window.reached, getD_none,
        continued_kept]
  | @send w _ _ h =>
      obtain ⟨rfl, -⟩ := send_eq_some h
      rintro _ ⟨⟩
      exact hgapless w rfl
  | write h =>
      obtain ⟨count, rest, houtstanding, rfl, hwrite⟩ := carryOut_eq_some h
      exact write_gapless hprogress horderly houtstanding hwrite
  | refuse h =>
      obtain ⟨count, rest, houtstanding, hdone, rfl, hwrite⟩ := refuse_eq_some h
      exact refuse_gapless hprogress hgapless horderly houtstanding hdone hwrite
  | close | stampPath | stampWork | publish | stampPublished | cleanUp | abandon =>
      exact fun w hw ↦ FilePhase.noConfusion hw

/-- What a phase says of the file that is written to is about that file only. -/
theorem WorkProgress.congr {phase : FilePhase} (h : job.WorkProgress o found t phase)
    (htarget : t'.get? (job.target o) = t.get? (job.target o)) :
    job.WorkProgress o found t' phase := by
  cases phase with
  | waiting | inspected | writing | closed | stamped | published | done | failed =>
      simp only [WorkProgress, bytesAt, htarget] at h ⊢
      exact h

theorem PathProgress.congr {phase : FilePhase} (h : job.PathProgress o found t phase)
    (hpath : t'.get? job.path = t.get? job.path) (hwork : t'.get? job.work = t.get? job.work) :
    job.PathProgress o found t' phase := by
  cases phase with
  | waiting => trivial
  | inspected | writing | closed | stamped | published | done | failed =>
      simp only [PathProgress, bytesAt, hpath, hwork] at h ⊢
      exact h

theorem TimeProgress.congr {phase : FilePhase} (h : job.TimeProgress o found t phase)
    (hpath : t'.get? job.path = t.get? job.path) : job.TimeProgress o found t' phase := by
  cases phase with
  | waiting | inspected | writing | closed | stamped | published | failed => exact h
  | done =>
      rw [TimeProgress, hpath]
      exact h

/-- What a transfer that has come to its end has made of what it found. -/
theorem bytesAt_of_done (hwork : job.WorkProgress o found t .done)
    (hpath : o.atomic = true → job.PathProgress o found t .done) :
    bytesAt t job.path = some (completed (job.kept o found) job.source) := by
  cases hatomic : o.atomic with
  | true => exact (hpath hatomic).1
  | false =>
      have htarget : job.target o = job.path := if_neg (Bool.eq_false_iff.mp hatomic)
      rw [← htarget]
      exact hwork hatomic

/-! ## Runs -/

/-- The files and how far a transfer has come. -/
structure FileState (P : Type) [LinearOrder P] where
  files : Files P
  phase : FilePhase

/-- One request of a transfer that has the files for itself. -/
def step (o : TransferOptions) (job : FileTransfer P) (s : FileState P) (r : FileRequest) :
    Option (FileState P) :=
  (job.request o s.files s.phase r).map fun next ↦ ⟨next.1, next.2⟩

/-- The states that a transfer comes to, and so those in which it may be broken off. -/
def Attempt (o : TransferOptions) (job : FileTransfer P) (t : Files P) (s : FileState P) : Prop :=
  Reaches (step o job) (fun _ _ ↦ True) ⟨t, .waiting⟩ s

theorem step_eq_some {s s' : FileState P} (h : step o job s r = some s') :
    job.request o s.files s.phase r = some (s'.files, s'.phase) := by
  obtain ⟨next, hnext, rfl⟩ := map_eq_some_iff.mp h
  exact hnext

/-- The file that is written to, in every state of an attempt. -/
theorem Attempt.work {s : FileState P} (h : Attempt o job t s) :
    job.WorkProgress o (t.get? (job.target o)) s.files s.phase := by
  induction h with
  | start => rfl
  | next _ _ hstep ih => exact request_work ih (step_eq_some hstep)

/-- The destination of an atomic transfer, in every state of an attempt. -/
theorem Attempt.path {s : FileState P} (h : Attempt o job t s) (hatomic : o.atomic = true)
    (hne : job.work ≠ job.path) :
    job.PathProgress o (t.get? (job.target o)) s.files s.phase := by
  induction h with
  | start => trivial
  | next hreach _ hstep ih =>
      exact request_path hatomic hne (Attempt.work hreach) ih (step_eq_some hstep)

/-- An attempt changes nothing but the destination and the file that is written to. -/
theorem Attempt.frame {s : FileState P} (h : Attempt o job t s) (hpath : q ≠ job.path)
    (htarget : q ≠ job.target o) : s.files.get? q = t.get? q := by
  induction h with
  | start => rfl
  | next hreach _ hstep ih =>
      exact (request_frame (Attempt.work hreach) (step_eq_some hstep) hpath htarget).trans ih

/-- An attempt in which the server writes nothing behind bytes that it has refused. -/
def OrderlyAttempt (o : TransferOptions) (job : FileTransfer P) (t : Files P) (s : FileState P) :
    Prop :=
  Reaches (step o job) (fun s r ↦ orderly s.phase r) ⟨t, .waiting⟩ s

theorem OrderlyAttempt.attempt {s : FileState P} (h : OrderlyAttempt o job t s) :
    Attempt o job t s :=
  h.mono fun _ _ _ ↦ trivial

/-- Such an attempt leaves no gap. -/
theorem OrderlyAttempt.gapless {s : FileState P} (h : OrderlyAttempt o job t s) :
    job.Gapless o (t.get? (job.target o)) s.files s.phase := by
  induction h with
  | start => exact fun w hw ↦ FilePhase.noConfusion hw
  | next hreach horderly hstep ih =>
      exact request_gapless (OrderlyAttempt.attempt hreach).work ih horderly (step_eq_some hstep)

theorem Attempt.bytes_of_done {s : FileState P} (h : Attempt o job t s) (hplaced : job.WellPlaced o)
    (hdone : s.phase = .done) :
    bytesAt s.files job.path =
      some (completed (job.kept o (t.get? (job.target o))) job.source) :=
  bytesAt_of_done (hdone ▸ h.work) fun hatomic ↦ hdone ▸ h.path hatomic (hplaced hatomic)

end FileTransfer

end KaduoxSsh.Transfer
