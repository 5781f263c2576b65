import Mathlib.Data.List.Forall2

/-!
# Fallible computations with an error chain

An error is the chain of its causes, the outermost context first, each cause a
text and, when it came from the operating system, the kind of that failure.
`bail` starts a chain and `context` puts one more cause in front of it.

Proofs take a `do` block apart with `bind_eq_ok`: a sequence succeeds exactly
when each of its stages does.
-/

namespace KaduoxSsh

open List

universe u v

/-- The kinds of operating-system failure told apart by programs. -/
inductive IoErrorKind where
  | notFound
  | permissionDenied
  | connectionRefused
  | connectionReset
  | brokenPipe
  | alreadyExists
  | unexpectedEof
  | other
deriving DecidableEq, Repr

/-- How the kind is told to a user. -/
def IoErrorKind.description : IoErrorKind → String
  | .notFound => "entity not found"
  | .permissionDenied => "permission denied"
  | .connectionRefused => "connection refused"
  | .connectionReset => "connection reset"
  | .brokenPipe => "broken pipe"
  | .alreadyExists => "entity already exists"
  | .unexpectedEof => "unexpected end of file"
  | .other => "other error"

/-- One link of an error chain. -/
structure Cause where
  text : String
  /-- Present when the link is an operating-system error. -/
  ioKind : Option IoErrorKind
deriving DecidableEq, Repr

/-- An error: its causes, the outermost context first. -/
structure AnyError where
  chain : List Cause
deriving DecidableEq, Repr

/-- An error with its causes, on one line. -/
def AnyError.alternate (error : AnyError) : String :=
  ": ".intercalate (error.chain.map Cause.text)

abbrev Result (α : Type u) := Except AnyError α

namespace Result

variable {α β : Type u} {x : Result α} {γ : Type v} {text : String} {l : List γ} {a : α}

def bail (text : String) : Result α := .error ⟨[⟨text, none⟩]⟩

/-- An operating-system error, as `?` turns it into an error chain. -/
def io (kind : IoErrorKind) (text : String) : Result α := .error ⟨[⟨text, some kind⟩]⟩

/-- Put a context in front of the chain of a failure. -/
def context (text : String) : Result α → Result α
  | .ok a => .ok a
  | .error e => .error ⟨⟨text, none⟩ :: e.chain⟩

/-- An absent value becomes a failure. -/
def ofOption (text : String) : Option α → Result α
  | some a => .ok a
  | none => bail text

/-- A check that stops with a message. -/
def bailIf (c : Prop) [Decidable c] (text : String) : Result PUnit :=
  if c then bail text else .ok ⟨⟩

def isOk : Result α → Bool
  | .ok _ => true
  | .error _ => false

@[simp] theorem bind_ok (a : α) (f : α → Result β) : (Except.ok a >>= f : Result β) = f a := rfl

@[simp] theorem bind_error (e : AnyError) (f : α → Result β) :
    ((Except.error e : Result α) >>= f) = .error e := rfl

@[simp] theorem pure_eq_ok (a : α) : (pure a : Result α) = .ok a := rfl

/-- A sequence succeeds exactly when each of its stages does. -/
theorem bind_eq_ok {f : α → Result β} {b : β} : x >>= f = .ok b ↔ ∃ a, x = .ok a ∧ f a = .ok b := by
  cases x with
  | error e => simp
  | ok a => simp

theorem map_eq_ok {f : α → β} {b : β} : x.map f = .ok b ↔ ∃ a, x = .ok a ∧ f a = b := by
  cases x <;> simp [Except.map]

theorem isOk_map {f : α → β} : isOk (x.map f) = x.isOk := by
  cases x <;> rfl

@[simp] theorem bail_ne_ok (text : String) (a : α) : (bail text : Result α) ≠ .ok a := by
  simp [bail]

@[simp] theorem context_eq_ok : context text x = .ok a ↔ x = .ok a := by
  cases x <;> simp [context]

@[simp] theorem ofOption_eq_ok {o : Option α} : ofOption text o = .ok a ↔ o = some a := by
  cases o <;> simp [ofOption, bail]

/-- A check followed by the rest succeeds exactly when the check passes and the rest does. -/
theorem ite_bail_eq_ok {c : Prop} [Decidable c] :
    (if c then bail text else x) = .ok a ↔ ¬c ∧ x = .ok a := by
  by_cases h : c <;> simp [h]

@[simp] theorem bailIf_eq_ok {c : Prop} [Decidable c] {u : PUnit} : bailIf c text = .ok u ↔ ¬c := by
  by_cases h : c <;> simp [bailIf, h]

theorem bailIf_of_not {c : Prop} [Decidable c] (h : ¬c) (text : String) :
    bailIf c text = .ok ⟨⟩ := if_neg h

/-- Of two checks in a row both have to succeed. -/
theorem check_bind_eq_ok {x : Result PUnit} {y : Result α} :
    (x >>= fun _ ↦ y) = .ok a ↔ x = .ok ⟨⟩ ∧ y = .ok a := by
  cases x <;> simp

theorem optionForM_eq_ok {o : Option γ} {f : γ → Result PUnit} :
    o.forM f = .ok ⟨⟩ ↔ ∀ x, o = some x → f x = .ok ⟨⟩ := by
  cases o <;> simp [Option.forM]

/-- A check of every element succeeds exactly when it accepts each of them. -/
theorem forM_eq_ok {f : γ → Result PUnit} : l.forM f = .ok ⟨⟩ ↔ ∀ x ∈ l, f x = .ok ⟨⟩ := by
  induction l with
  | nil => simp
  | cons a rest ih =>
      rw [show (a :: rest).forM f = (f a >>= fun _ ↦ rest.forM f) from rfl, bind_eq_ok]
      constructor
      · rintro ⟨_, ha, hrest⟩ x hx
        rcases mem_cons.mp hx with rfl | hx
        · exact ha
        · exact ih.mp hrest x hx
      · exact fun h ↦ ⟨⟨⟩, h a mem_cons_self,
          ih.mpr fun x hx ↦ h x (mem_cons_of_mem a hx)⟩

/-- A list of computations succeeds with the list of what each of them gives. -/
theorem mapM_eq_ok {f : γ → Result α} {as : List α} :
    l.mapM f = .ok as ↔ List.Forall₂ (fun x a ↦ f x = .ok a) l as := by
  induction l generalizing as with
  | nil =>
      rw [mapM_nil, forall₂_nil_left_iff]
      exact ⟨fun h ↦ (Except.ok.inj h).symm, fun h ↦ congrArg Except.ok h.symm⟩
  | cons x rest ih =>
      simp only [mapM_cons, bind_eq_ok, ih, pure_eq_ok, Except.ok.injEq,
        forall₂_cons_left_iff]
      constructor
      · rintro ⟨a, ha, as', has, rfl⟩
        exact ⟨a, as', ha, has, rfl⟩
      · rintro ⟨a, as', ha, has, rfl⟩
        exact ⟨a, ha, as', has, rfl⟩

theorem toOption_eq_some : x.toOption = some a ↔ x = .ok a := by
  cases x <;> simp [Except.toOption]

theorem isOk_iff : x.isOk = true ↔ ∃ a, x = .ok a := by
  cases x <;> simp [isOk]

theorem isOk_eq_false_iff : x.isOk = false ↔ ∀ a, x ≠ .ok a := by
  cases x <;> simp [isOk]

theorem foldlM_congr {f g : α → γ → Result α} (h : ∀ a, ∀ x ∈ l, f a x = g a x) (a : α) :
    l.foldlM f a = l.foldlM g a := by
  induction l generalizing a with
  | nil => rfl
  | cons x rest ih =>
      rw [foldlM_cons, foldlM_cons, h a x mem_cons_self]
      exact congrArg (g a x >>= ·) (funext fun b ↦
        ih (fun a y hy ↦ h a y (mem_cons_of_mem x hy)) b)

/-- A loop fails that comes to an element at which every step fails. -/
theorem foldlM_isOk_eq_false {f : α → γ → Result α} {x : γ} (hx : x ∈ l)
    (h : ∀ a, (f a x).isOk = false) (a : α) : (l.foldlM f a).isOk = false := by
  induction l generalizing a with
  | nil => cases hx
  | cons y rest ih =>
      rw [foldlM_cons, isOk_eq_false_iff]
      intro c hc
      obtain ⟨b, hb, hrest⟩ := bind_eq_ok.mp hc
      rcases mem_cons.mp hx with rfl | hx
      · exact isOk_eq_false_iff.mp (h a) b hb
      · exact isOk_eq_false_iff.mp (ih hx b) c hrest

end Result

end KaduoxSsh
