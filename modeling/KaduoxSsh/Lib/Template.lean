import KaduoxSsh.Lib.Result

/-!
# Templates

A template is a sequence of pieces, each of them text or a token. It is expanded by
putting its pieces after one another, with the value of each token in the token's
place. A token may have no value, and then the template has no expansion. What is
put in is not looked at again.
-/

namespace KaduoxSsh.Template

open Result

universe u

/-- A piece of a template whose tokens are of type `τ`. -/
inductive Piece (τ : Type u) where
  | char (c : Char)
  | token (t : τ)
deriving DecidableEq, Repr

/-- The pieces of a text, read once from left to right. A token is a percent sign with the
character behind it, or with none at the end. -/
def percentPieces : List Char → List (Piece (Option Char))
  | [] => []
  | '%' :: [] => [.token none]
  | '%' :: c :: rest => .token (some c) :: percentPieces rest
  | c :: rest => .char c :: percentPieces rest

theorem percentPieces_cons {c : Char} (hc : c ≠ '%') (rest : List Char) :
    percentPieces (c :: rest) = .char c :: percentPieces rest := by
  rw [percentPieces.eq_def]
  split
  · next h => cases h
  · next h =>
    injection h with h
    exact absurd h hc
  · next h =>
    injection h with h
    exact absurd h hc
  · next h =>
    injection h with h hrest
    rw [h, hrest]

/-- Text without a percent sign is copied. -/
theorem percentPieces_append {before : List Char} (h : '%' ∉ before) (rest : List Char) :
    percentPieces (before ++ rest) = before.map Piece.char ++ percentPieces rest := by
  induction before with
  | nil => rfl
  | cons c before ih =>
      obtain ⟨hc, hbefore⟩ := not_or.mp (mt List.mem_cons.mpr h)
      rw [List.cons_append, percentPieces_cons (Ne.symm hc), ih hbefore]
      rfl

variable {τ : Type u} (value : τ → Result String)

/-- A piece as text, with a text for each token. -/
def Piece.text (text : τ → String) : Piece τ → String
  | .char c => String.singleton c
  | .token t => text t

def Piece.expand : Piece τ → Result String
  | .char c => .ok (String.singleton c)
  | .token t => value t

/-- The pieces one after another, or the failure of the first token without a value. -/
def expand : List (Piece τ) → Result String
  | [] => .ok ""
  | p :: ps => do
      let text ← p.expand value
      let rest ← expand ps
      return text ++ rest

variable {value} {ps qs : List (Piece τ)} {output : String}

theorem expand_append : expand value (ps ++ qs) = do
    let front ← expand value ps
    let back ← expand value qs
    return front ++ back := by
  induction ps with
  | nil =>
      rw [List.nil_append, expand, bind_ok]
      cases expand value qs <;> simp
  | cons p ps ih =>
      rw [List.cons_append, expand, expand, ih]
      cases p.expand value with
      | error e => rfl
      | ok text =>
          cases expand value ps with
          | error e => rfl
          | ok front =>
              cases expand value qs with
              | error e => rfl
              | ok back => simp [String.append_assoc]
theorem expand_chars (cs : List Char) : expand value (cs.map Piece.char) = .ok (String.ofList cs) := by
  induction cs with
  | nil => rfl
  | cons c cs ih =>
      rw [List.map_cons, expand, ih]
      refine congrArg Except.ok (String.toList_inj.mp ?_)
      rw [String.toList_append, String.toList_ofList, String.toList_ofList, String.toList_singleton]
      rfl

/-- Characters in front of a template are in front of its expansion. -/
theorem expand_chars_append {cs : List Char} : expand value (cs.map Piece.char ++ ps) = .ok output ↔
    ∃ back, expand value ps = .ok back ∧ output = String.ofList cs ++ back := by
  rw [expand_append, expand_chars, bind_ok]
  simp only [bind_eq_ok, pure_eq_ok, Except.ok.injEq]
  exact exists_congr fun back ↦ and_congr_right fun _ ↦ eq_comm

theorem expand_char_cons {c : Char} : expand value (.char c :: ps) = .ok output ↔
    ∃ back, expand value ps = .ok back ∧ output = String.singleton c ++ back := by
  simp only [expand, Piece.expand, bind_ok, bind_eq_ok, pure_eq_ok,
    Except.ok.injEq]
  exact exists_congr fun back ↦ and_congr_right fun _ ↦ eq_comm

theorem expand_token_cons {t : τ} : expand value (.token t :: ps) = .ok output ↔
    ∃ text back, value t = .ok text ∧ expand value ps = .ok back ∧ output = text ++ back := by
  simp only [expand, Piece.expand, bind_eq_ok, pure_eq_ok, Except.ok.injEq]
  constructor
  · rintro ⟨text, htext, back, hback, rfl⟩
    exact ⟨text, back, htext, hback, rfl⟩
  · rintro ⟨text, back, htext, hback, rfl⟩
    exact ⟨text, htext, back, hback, rfl⟩

/-- A template has an expansion exactly when each of its tokens has a value. -/
theorem expand_isOk_iff :
    (expand value ps).isOk = true ↔ ∀ t, .token t ∈ ps → (value t).isOk = true := by
  induction ps with
  | nil => exact iff_of_true rfl fun t ht ↦ absurd ht List.not_mem_nil
  | cons p ps ih =>
      have hcons : (expand value (p :: ps)).isOk = true ↔
          (p.expand value).isOk = true ∧ (expand value ps).isOk = true := by
        rw [expand]
        cases p.expand value with
        | error e => simp [isOk]
        | ok text => cases expand value ps <;> simp [isOk]
      rw [hcons, ih]
      cases p with
      | char c => simp [Piece.expand, isOk]
      | token t => simp [Piece.expand, or_imp, forall_and]

/-- Tokens whose values are the texts of a function expand to these. -/
theorem expand_eq_ok_of_forall {text : τ → String} (h : ∀ t, .token t ∈ ps → value t = .ok (text t)) :
    expand value ps = .ok (String.join (ps.map (Piece.text text))) := by
  induction ps with
  | nil => rfl
  | cons p ps ih =>
      rw [expand, ih fun t ht ↦ h t (List.mem_cons_of_mem p ht), List.map_cons, String.join_cons]
      cases p with
      | char c => rfl
      | token t =>
          rw [Piece.expand, h t List.mem_cons_self]
          rfl

/-! ## Bounded expansions -/

/-- A text of at most so many bytes. -/
def within (maxBytes : Nat) (x : Option String) : Option String :=
  x.filter fun output ↦ output.utf8ByteSize ≤ maxBytes

end KaduoxSsh.Template
