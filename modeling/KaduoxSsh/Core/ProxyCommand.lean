import KaduoxSsh.Core.Config
import KaduoxSsh.Lib.Template

/-!
# Expanding a ProxyCommand

The tokens of a ProxyCommand, as `client.rs` expands them. The command goes to the
shell of the platform, so that the values that are put in are restricted to
characters that no shell gives a meaning to, and what does not keep to them is refused.

A percent sign before any other character is no token, and neither is one at the end.
Both are copied.
-/

namespace KaduoxSsh.Core

open Text Template Result

def PROXY_EXPANSION_SAFE_PUNCTUATION : List Char := "._:@+-[]".toList

def validateProxyExpansionValue (label value : String) : Result Unit := do
  Result.bailIf (value = "") s!"ProxyCommand {label} expansion value must not be empty"
  Result.bailIf
    (¬value.toList.all fun c ↦ c.isAlphanum || PROXY_EXPANSION_SAFE_PUNCTUATION.contains c)
    (s!"refusing unsafe ProxyCommand {label} expansion value outside the portable " ++
      "shell-token grammar [A-Za-z0-9._:@+-[]]")

/-- A value that is put in, if it is a safe one. -/
def safeValue (label value : String) : Result String := do
  validateProxyExpansionValue label value
  return value

/-- What is put in for a percent sign and the character behind it. -/
def proxyToken (config : ConnectionConfig) : Char → Result String
  | '%' => .ok "%"
  | 'h' => safeValue "host" config.host
  | 'p' => .ok (toString config.port.toNat)
  | 'r' => safeValue "username" config.username
  | 'n' => safeValue "host alias" config.hostAlias
  | other => .ok (String.ofList ['%', other])

/-- Read on, with the output so far. -/
def expandProxyChars (config : ConnectionConfig) : String → List Char → Result String
  | output, [] => .ok output
  | output, c :: rest =>
      if c = '%' then
        match rest with
        | [] => .ok (output.push '%')
        | token :: rest => do expandProxyChars config (output ++ (← proxyToken config token)) rest
      else expandProxyChars config (output.push c) rest

def expandProxyCommand (template : String) (config : ConnectionConfig) : Result String :=
  expandProxyChars config "" template.toList

/-! ## The template -/

/-- The values that tokens stand for, with what they are called. -/
def proxyValue (config : ConnectionConfig) : Char → Option (String × String)
  | 'h' => some ("host", config.host)
  | 'p' => some ("port", toString config.port.toNat)
  | 'r' => some ("username", config.username)
  | 'n' => some ("host alias", config.hostAlias)
  | _ => none

/-- What a token is replaced by: a value, one percent sign for two, or the token itself. -/
def proxyText (config : ConnectionConfig) : Option Char → String
  | none => "%"
  | some '%' => "%"
  | some token => ((proxyValue config token).map Prod.snd).getD (String.ofList ['%', token])

/-- The pieces of a template as text. -/
def proxyTexts (config : ConnectionConfig) (template : String) : List String :=
  (percentPieces template.toList).map (Piece.text (proxyText config))

/-! ## The expansion -/

variable {config : ConnectionConfig} {template output : String}

def proxyResult (config : ConnectionConfig) : Option Char → Result String
  | none => .ok "%"
  | some token => proxyToken config token

/-- The loop appends the expansion of the pieces to the output. -/
theorem expandProxyChars_eq (cs : List Char) :
    expandProxyChars config output cs =
      (expand (proxyResult config) (percentPieces cs)).map (output ++ ·) := by
  fun_induction percentPieces cs generalizing output with
  | case1 => simp [expandProxyChars, expand, Except.map]
  | case2 =>
      rw [expandProxyChars, if_pos rfl]
      exact congrArg Except.ok String.append_singleton.symm
  | case3 token rest ih =>
      rw [expandProxyChars, if_pos rfl, expand, Piece.expand, proxyResult]
      cases proxyToken config token with
      | error e => rfl
      | ok text =>
          rw [bind_ok, bind_ok, ih]
          cases expand (proxyResult config) (percentPieces rest) with
          | error e => rfl
          | ok back => exact congrArg Except.ok String.append_assoc
  | case4 c rest hend htoken ih =>
      have hc : c ≠ '%' := by
        rintro rfl
        cases rest with
        | nil => exact hend rfl rfl
        | cons token rest => exact htoken token rest rfl rfl
      rw [expandProxyChars.eq_def]
      dsimp only
      rw [if_neg hc, ih, expand, Piece.expand, bind_ok]
      cases expand (proxyResult config) (percentPieces rest) with
      | error e => rfl
      | ok back =>
          refine congrArg Except.ok ?_
          change output.push c ++ back = output ++ (String.singleton c ++ back)
          rw [← String.append_assoc, String.append_singleton]

theorem expandProxyCommand_eq (template : String) (config : ConnectionConfig) :
    expandProxyCommand template config =
      expand (proxyResult config) (percentPieces template.toList) := by
  rw [expandProxyCommand, expandProxyChars_eq]
  cases expand (proxyResult config) (percentPieces template.toList) with
  | error e => rfl
  | ok output => exact congrArg Except.ok String.empty_append

/-- A port is a safe value. -/
theorem validate_port (port : UInt16) :
    validateProxyExpansionValue "port" (toString port.toNat) = .ok () := by
  have htext : (toString port.toNat).toList = Nat.toDigits 10 port.toNat := String.toList_ofList
  have hne : toString port.toNat ≠ "" := by
    intro hempty
    rw [hempty] at htext
    exact Nat.toDigits_ne_nil htext.symm
  have hall : (toString port.toNat).toList.all fun c ↦
      c.isAlphanum || PROXY_EXPANSION_SAFE_PUNCTUATION.contains c := by
    rw [htext, List.all_eq_true]
    intro c hc
    have hdigit := Nat.isDigit_of_mem_toDigits (by decide) (by decide) hc
    simp [Char.isAlphanum, hdigit]
  rw [validateProxyExpansionValue, check_bind_eq_ok]
  exact ⟨bailIf_eq_ok.mpr hne, bailIf_eq_ok.mpr (not_not.mpr hall)⟩

theorem safeValue_eq_ok {label value text : String} : safeValue label value = .ok text ↔
    validateProxyExpansionValue label value = .ok () ∧ text = value := by
  rw [safeValue, check_bind_eq_ok, pure_eq_ok, Except.ok.injEq]
  exact and_congr_right fun _ ↦ eq_comm

/-- A token is replaced by its text, if the value it stands for is a safe one. -/
theorem proxyResult_eq_ok {t : Option Char} {text : String} :
    proxyResult config t = .ok text ↔
      (∀ token ∈ t, ∀ v ∈ proxyValue config token, validateProxyExpansionValue v.1 v.2 = .ok ()) ∧
        text = proxyText config t := by
  cases t with
  | none => simp [proxyResult, proxyText, eq_comm]
  | some token =>
      rw [proxyResult]
      unfold proxyToken
      split
      · simp [proxyText, proxyValue, eq_comm]
      · rw [safeValue_eq_ok]
        simp [proxyText, proxyValue]
      · have hport : validateProxyExpansionValue "port" config.port.toNat.repr = .ok () :=
          validate_port config.port
        simp [proxyText, proxyValue, hport, eq_comm]
      · rw [safeValue_eq_ok]
        simp [proxyText, proxyValue]
      · rw [safeValue_eq_ok]
        simp [proxyText, proxyValue]
      · next hpercent hhost hport huser hname =>
        have hnone : proxyValue config token = none := by
          unfold proxyValue
          split
          · exact absurd rfl hhost
          · exact absurd rfl hport
          · exact absurd rfl huser
          · exact absurd rfl hname
          · rfl
        have htext : proxyText config (some token) = String.ofList ['%', token] := by
          unfold proxyText
          split
          · next heq => cases heq
          · next heq => exact absurd (Option.some.inj heq) hpercent
          · next heq =>
            cases heq
            rw [hnone]
            rfl
        rw [htext, Except.ok.injEq]
        simp [hnone, eq_comm]

/-- The expansion goes over the template once. It fails exactly when a value that would be put in
is not a safe one, and else it is the template with its tokens replaced, those that are not known
being left as they are. -/
theorem expandProxyCommand_single_pass (template : String) (config : ConnectionConfig) :
    ((expandProxyCommand template config).isOk = true ↔
      ∀ token, .token (some token) ∈ percentPieces template.toList →
        ∀ v ∈ proxyValue config token, validateProxyExpansionValue v.1 v.2 = .ok ()) ∧
    ∀ output, expandProxyCommand template config = .ok output →
      output = String.join (proxyTexts config template) := by
  have htoken (t : Option Char) : (proxyResult config t).isOk = true ↔
      ∀ token ∈ t, ∀ v ∈ proxyValue config token,
        validateProxyExpansionValue v.1 v.2 = .ok () := by
    rw [isOk_iff]
    simp only [proxyResult_eq_ok, exists_and_left, exists_eq, and_true]
  rw [expandProxyCommand_eq, expand_isOk_iff]
  constructor
  · simp only [htoken]
    constructor
    · exact fun h token hmem v hv ↦ h (some token) hmem token rfl v hv
    · rintro h t hmem token rfl
      exact h token hmem
  · intro output hexpand
    have hall : ∀ t, .token t ∈ percentPieces template.toList →
        proxyResult config t = .ok (proxyText config t) := by
      intro t ht
      obtain ⟨text, htext⟩ :=
        isOk_iff.mp (expand_isOk_iff.mp (isOk_iff.mpr ⟨output, hexpand⟩) t ht)
      rw [htext, (proxyResult_eq_ok.mp htext).2]
    rw [expand_eq_ok_of_forall hall] at hexpand
    exact (Except.ok.inj hexpand).symm

/-- A token that is not known and a percent sign at the end do not make the expansion fail. -/
theorem unknown_tokens_are_copied :
    ¬∀ (template : String) (config : ConnectionConfig),
      (∃ t, .token t ∈ percentPieces template.toList ∧
        ∀ token ∈ t, token ≠ '%' ∧ proxyValue config token = none) →
      (expandProxyCommand template config).isOk = false := by
  intro h
  have hfails := h "%x %" (.new "host" "user") ⟨some 'x', by decide, by
    rintro token ⟨⟩
    exact ⟨by decide, rfl⟩⟩
  have hok : expandProxyCommand "%x %" (.new "host" "user") = .ok "%x %" := rfl
  rw [hok] at hfails
  cases hfails

end KaduoxSsh.Core
