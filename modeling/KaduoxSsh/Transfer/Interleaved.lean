import KaduoxSsh.Transfer.AtomicTransfer
import KaduoxSsh.Transfer.Completion

/-!
# Transfers at the same time

The transfers of several files, whose requests come between each other. Where no two of
them have a path in common each is carried out as if it were alone.
-/

namespace KaduoxSsh.Transfer

open Resume FileTransfer

/-- The files, and how far each transfer has come. -/
structure Interleaved (K P : Type) [LinearOrder P] where
  files : Files P
  phase : K → FilePhase

namespace Interleaved

variable {K P : Type} [DecidableEq K] [LinearOrder P] (o : TransferOptions)
  (job : K → FileTransfer P)

/-- One request of one of the transfers. -/
def step (s : Interleaved K P) (e : K × FileRequest) : Option (Interleaved K P) :=
  ((job e.1).request o s.files (s.phase e.1) e.2).map fun next ↦
    ⟨next.1, Function.update s.phase e.1 next.2⟩

def start (t : Files P) : Interleaved K P := ⟨t, fun _ ↦ .waiting⟩

/-- No two transfers have a path in common, nor has one its two. -/
structure Disjoint : Prop where
  wellPlaced : ∀ a, (job a).WellPlaced o
  path : ∀ a b, a ≠ b → (job a).path ≠ (job b).path
  target : ∀ a b, a ≠ b →
    (job a).target o ≠ (job b).path ∧ (job a).target o ≠ (job b).target o

/-- A transfer is as far as its phase says. -/
structure Progress (job : FileTransfer P) (found : Option Object) (files : Files P)
    (phase : FilePhase) : Prop where
  work : job.WorkProgress o found files phase
  path : o.atomic = true → job.PathProgress o found files phase
  time : job.direction = .upload → job.TimeProgress o found files phase

/-- Each transfer is as far as its phase says. -/
def Inv (t : Files P) (s : Interleaved K P) : Prop :=
  ∀ a, Progress o (job a) (t.get? ((job a).target o)) s.files (s.phase a)

variable {o job} {t : Files P} {s s' : Interleaved K P}

theorem Inv.step (hdisjoint : Disjoint o job) (hinv : Inv o job t s) {e : K × FileRequest}
    (h : Interleaved.step o job s e = some s') : Inv o job t s' := by
  obtain ⟨b, r⟩ := e
  obtain ⟨⟨files, phase⟩, hrequest, rfl⟩ := Option.map_eq_some_iff.mp h
  intro a
  show Progress o (job a) _ files (Function.update s.phase b phase a)
  by_cases hab : a = b
  · subst hab
    rw [Function.update_self]
    obtain ⟨hwork, hpath, htime⟩ := hinv a
    exact ⟨request_work hwork hrequest, fun hatomic ↦
      request_path hatomic (hdisjoint.wellPlaced a hatomic) hwork (hpath hatomic) hrequest,
      fun hupload ↦ request_time hupload hwork (htime hupload) hrequest⟩
  · -- The transfer of another file touches neither of the two paths.
    rw [Function.update_of_ne hab]
    have hpath : files.get? (job a).path = s.files.get? (job a).path :=
      request_frame (hinv b).work hrequest (hdisjoint.path a b hab)
        (hdisjoint.target b a (Ne.symm hab)).1.symm
    have htarget : files.get? ((job a).target o) = s.files.get? ((job a).target o) :=
      request_frame (hinv b).work hrequest (hdisjoint.target a b hab).1
        (hdisjoint.target a b hab).2
    refine ⟨(hinv a).work.congr htarget, fun hatomic ↦ ?_, fun hupload ↦
      ((hinv a).time hupload).congr hpath⟩
    rw [FileTransfer.target, if_pos hatomic] at htarget
    exact ((hinv a).path hatomic).congr hpath htarget

theorem inv_of_reaches (hdisjoint : Disjoint o job)
    (h : Reaches (Interleaved.step o job) (fun _ _ ↦ True) (start t) s) : Inv o job t s := by
  apply h.invariant
  · exact fun a ↦ ⟨rfl, fun _ ↦ trivial, fun _ ↦ trivial⟩
  · intro s e s' hinv _ hstep
    exact hinv.step hdisjoint hstep

/-- Nothing has changed but the destinations and the files that are written to. -/
theorem frame_of_reaches (hdisjoint : Disjoint o job)
    (h : Reaches (Interleaved.step o job) (fun _ _ ↦ True) (start t) s) {q : P}
    (hq : ∀ a, q ≠ (job a).path ∧ q ≠ (job a).target o) : s.files.get? q = t.get? q := by
  induction h with
  | start => rfl
  | @next _ _ e hreach _ hstep ih =>
      obtain ⟨⟨files, phase⟩, hrequest, rfl⟩ := Option.map_eq_some_iff.mp hstep
      have hprogress := (inv_of_reaches hdisjoint hreach e.1).work
      exact (request_frame hprogress hrequest (hq e.1).1 (hq e.1).2).trans ih

/-- What stands at the destination of a transfer in the end. -/
theorem bytes_of_done (hdisjoint : Disjoint o job)
    (h : Reaches (Interleaved.step o job) (fun _ _ ↦ True) (start t) s) {a : K}
    (hdone : s.phase a = .done) :
    bytesAt s.files (job a).path =
      some (completed ((job a).kept o (t.get? ((job a).target o))) (job a).source) := by
  obtain ⟨hwork, hpath, -⟩ := inv_of_reaches hdisjoint h a
  rw [hdone] at hwork hpath
  exact bytesAt_of_done hwork hpath

/-- A transfer that has not begun finds what was there in the beginning, and one that has begun has
found nothing to refuse. -/
structure Begun (o : TransferOptions) (job : K → FileTransfer P) (t : Files P)
    (s : Interleaved K P) : Prop where
  waiting : ∀ a, s.phase a = .waiting → s.files.get? (job a).path = t.get? (job a).path ∧
    s.files.get? (job a).work = t.get? (job a).work
  free : ∀ a, s.phase a ≠ .waiting →
    t.get? (job a).path = none ∧ ¬(job a).Unfit (t.get? (job a).work)

omit [DecidableEq K] in
/-- A transfer that begins has found nothing to refuse. -/
theorem Begun.inspected (hatomic : o.atomic = true) (hbegun : Begun o job t s) {a : K}
    {r : FileRequest} {files : Files P} {phase : FilePhase}
    (h : (job a).request o s.files (s.phase a) r = some (files, phase)) :
    t.get? (job a).path = none ∧ ¬(job a).Unfit (t.get? (job a).work) := by
  by_cases hwaiting : s.phase a = .waiting
  · obtain ⟨hpath, hwork⟩ := hbegun.waiting a hwaiting
    rw [hwaiting] at h
    have hinspect := inspect_of_requested (requested h)
    obtain ⟨offset, existing, -, hnone⟩ := inspect_eq_some hinspect
    refine ⟨hpath ▸ hnone hatomic, fun hunfit ↦ ?_⟩
    rw [inspect_of_unfit hatomic (hwork ▸ hunfit)] at hinspect
    cases hinspect
  · exact hbegun.free a hwaiting

theorem Begun.step (hatomic : o.atomic = true) (hdisjoint : Disjoint o job) (hinv : Inv o job t s)
    (hbegun : Begun o job t s) {e : K × FileRequest} (h : Interleaved.step o job s e = some s') :
    Begun o job t s' := by
  obtain ⟨b, r⟩ := e
  obtain ⟨⟨files, phase⟩, hrequest, rfl⟩ := Option.map_eq_some_iff.mp h
  have htarget (a : K) : (job a).target o = (job a).work := if_pos hatomic
  constructor
  · intro a hwaiting
    have hab : a ≠ b := by
      rintro rfl
      dsimp only at hwaiting
      rw [Function.update_self] at hwaiting
      exact ne_waiting_of_request hrequest hwaiting
    dsimp only at hwaiting ⊢
    rw [Function.update_of_ne hab] at hwaiting
    obtain ⟨hpath, hwork⟩ := hbegun.waiting a hwaiting
    rw [← hpath, ← hwork, ← htarget]
    exact ⟨request_frame (hinv b).work hrequest (hdisjoint.path a b hab)
        (hdisjoint.target b a (Ne.symm hab)).1.symm,
      request_frame (hinv b).work hrequest (hdisjoint.target a b hab).1
        (hdisjoint.target a b hab).2⟩
  · intro a hbegan
    by_cases hab : a = b
    · subst hab
      exact hbegun.inspected hatomic hrequest
    · dsimp only at hbegan
      rw [Function.update_of_ne hab] at hbegan
      exact hbegun.free a hbegan

theorem begun_of_reaches (hatomic : o.atomic = true) (hdisjoint : Disjoint o job)
    (h : Reaches (Interleaved.step o job) (fun _ _ ↦ True) (start t) s) : Begun o job t s := by
  induction h with
  | start => exact ⟨fun _ _ ↦ ⟨rfl, rfl⟩, fun _ h ↦ absurd rfl h⟩
  | next hreach _ hstep ih =>
      exact ih.step hatomic hdisjoint (inv_of_reaches hdisjoint hreach) hstep

/-! ## One transfer after the other -/

/-- What a transfer does when it is alone it also does among others that wait. -/
theorem reaches_of_attempt {a : K} {u : FileState P} (hphase : s.phase a = .waiting)
    (hreach : Reaches (Interleaved.step o job) (fun _ _ ↦ True) (start t) s)
    (h : Attempt o (job a) s.files u) :
    Reaches (Interleaved.step o job) (fun _ _ ↦ True) (start t)
      ⟨u.files, Function.update s.phase a u.phase⟩ := by
  induction h with
  | start =>
      rw [← hphase, Function.update_eq_self]
      exact hreach
  | @next u v r _ _ hstep ih =>
      refine ih.next (e := (a, r)) trivial ?_
      obtain ⟨next, hnext, rfl⟩ := Option.map_eq_some_iff.mp hstep
      rw [Interleaved.step]
      dsimp only
      rw [Function.update_self, hnext, Option.map_some, Function.update_idem]

/-- Transfers that find nothing to refuse can all come to their end, one after the other. -/
theorem exists_done (hatomic : o.atomic = true) (hresume : o.resume = true)
    (hwrites : 0 < o.sftpWriteConcurrency) (hdisjoint : Disjoint o job)
    (hfree : ∀ a, t.get? (job a).path = none ∧ ¬(job a).Unfit (t.get? (job a).work))
    (all : List K) :
    ∃ s, Reaches (Interleaved.step o job) (fun _ _ ↦ True) (start t) s ∧
      ∀ a, s.phase a = if a ∈ all then .done else .waiting := by
  induction all with
  | nil => exact ⟨start t, .start, fun a ↦ by rw [if_neg List.not_mem_nil]; rfl⟩
  | cons a rest ih =>
      obtain ⟨s, hreach, hphase⟩ := ih
      by_cases ha : a ∈ rest
      · refine ⟨s, hreach, fun b ↦ (hphase b).trans (if_congr ?_ rfl rfl)⟩
        exact ⟨List.mem_cons_of_mem a, fun hb ↦ (List.mem_cons.mp hb).elim (· ▸ ha) id⟩
      · have hwaiting : s.phase a = .waiting := (hphase a).trans (if_neg ha)
        have hfound := (begun_of_reaches hatomic hdisjoint hreach).waiting a hwaiting
        have hinspect : (job a).inspect o s.files ≠ none :=
          inspect_of_fit hatomic hresume (hfound.1.trans (hfree a).1) (hfound.2 ▸ (hfree a).2)
        obtain ⟨files, hdone⟩ :=
          FileTransfer.exists_done (hdisjoint.wellPlaced a) hwrites hinspect
        refine ⟨_, reaches_of_attempt hwaiting hreach hdone.attempt, fun b ↦ ?_⟩
        dsimp only
        by_cases hb : b = a
        · subst hb
          rw [Function.update_self, if_pos List.mem_cons_self]
        · rw [Function.update_of_ne hb, hphase]
          exact if_congr (by simp [hb]) rfl rfl

end Interleaved

end KaduoxSsh.Transfer
