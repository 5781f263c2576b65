import KaduoxSsh.Lib.Template
import KaduoxSsh.Lib.Words

/-!
# Variables in the path of an Include

`openssh_include/env.rs`: `${…}` stands for a variable of the environment, and a percent
sign with a letter for a name of the local host. The text between two variables is cut
out and its percent signs are looked at apart from the variables, but the result is that
of a single pass over the whole text. Every piece that is put out is counted.

The environment and what the platform calls the host are parameters.
-/

namespace KaduoxSsh.OpenSsh

open Text Template Result List

structure LocalHostnames where
  full : String
  short : String
deriving DecidableEq, Repr

/-- The names of the local host, from what the platform calls it (`query_local_hostnames`). -/
def queryLocalHostnames (hostname : Result String) : Result LocalHostnames := do
  let full ← hostname
  bailIf (full = "") "local hostname is empty"
  return ⟨full, String.ofList (full.toList.takeWhile (· ≠ '.'))⟩

namespace Variables

/-- An output with more behind it. -/
def pushBounded (output value : String) (maxBytes : UInt64) : Result String := do
  bailIf (2 ^ 64 ≤ output.utf8ByteSize + value.utf8ByteSize)
    "OpenSSH Include environment/percent expansion byte accounting overflow"
  bailIf (output.utf8ByteSize + value.utf8ByteSize > maxBytes.toNat)
    s!"expanded OpenSSH Include path exceeds the {maxBytes}-byte safety limit"
  return output ++ value

variable (lookup : String → Result String) (hostname : Result String) (maxBytes : UInt64)

/-- The names of the host, which are asked for once. -/
def localHostnames : Option LocalHostnames → Result LocalHostnames
  | some names => .ok names
  | none => queryLocalHostnames hostname

/-- What a percent sign and the character behind it are replaced by. -/
def percentReplacement (localNames : Option LocalHostnames) :
    Char → Result (String × Option LocalHostnames)
  | '%' => .ok ("%", localNames)
  | 'l' => do
      let names ← localHostnames hostname localNames
      return (names.full, some names)
  | 'L' => do
      let names ← localHostnames hostname localNames
      return (names.short, some names)
  | token => bail s!"OpenSSH Include percent token %{token} is not supported yet"

/-- The output after a text without variables, and the names if they are known by then. -/
def expandPercentTokens (output : String) (localNames : Option LocalHostnames)
    (rest : List Char) : Result (String × Option LocalHostnames) :=
  match _h : splitAtFirst ['%'] rest with
  | none => do return (← pushBounded output (String.ofList rest) maxBytes, localNames)
  | some (before, []) => do
      let _ ← pushBounded output (String.ofList before) maxBytes
      bail "OpenSSH Include ends with an incomplete percent token"
  | some (before, token :: after) => do
      let output ← pushBounded output (String.ofList before) maxBytes
      let (replacement, localNames) ← percentReplacement hostname localNames token
      let output ← pushBounded output replacement maxBytes
      expandPercentTokens output localNames after
termination_by rest.length
decreasing_by
  have hlt := length_lt_of_splitAtFirst (cons_ne_nil _ _) _h
  rw [length_cons] at hlt
  omega

/-- What a variable is replaced by. -/
def variableValue (name : String) : Result String := do
  bailIf (name = "") "OpenSSH Include contains an empty environment variable name"
  context
    ("failed to expand OpenSSH Include environment variable $\x7b" ++ name ++ "\x7d") (lookup name)

/-- Read on, with the output so far. -/
def expandVariables (output : String) (localNames : Option LocalHostnames) (rest : List Char) :
    Result String :=
  match _h : splitAtFirst ['$', '\x7b'] rest with
  | none => do return (← expandPercentTokens hostname maxBytes output localNames rest).1
  | some (before, variableAndRest) => do
      let (output, localNames) ←
        expandPercentTokens hostname maxBytes output localNames before
      match _h' : splitAtFirst ['\x7d'] variableAndRest with
      | none =>
          bail "OpenSSH Include contains an unterminated $\x7b...\x7d environment expansion"
      | some (name, after) =>
          let value ← variableValue lookup (String.ofList name)
          let output ← pushBounded output value maxBytes
          expandVariables output localNames after
termination_by rest.length
decreasing_by
  have hlt := length_lt_of_splitAtFirst (cons_ne_nil _ _) _h
  have hlt' := length_lt_of_splitAtFirst (cons_ne_nil _ _) _h'
  omega

end Variables

def expandIncludeEnvironmentWith (lookup : String → Result String) (hostname : Result String)
    (value : String) (maxBytes : UInt64) : Result String :=
  Variables.expandVariables lookup hostname maxBytes "" none value.toList

/-! ## A single pass -/

/-- What is replaced in the path of an Include. -/
inductive IncludeToken where
  | percent (token : Option Char)
  | environment (name : String)
  | unterminated
deriving DecidableEq, Repr

/-- The pieces of a path, read once from left to right. -/
def includePieces : List Char → List (Template.Piece IncludeToken)
  | [] => []
  | '$' :: '\x7b' :: rest =>
      match _h : splitAtFirst ['\x7d'] rest with
      | none => [.token .unterminated]
      | some (name, after) => .token (.environment (String.ofList name)) :: includePieces after
  | '%' :: [] => [.token (.percent none)]
  | '%' :: c :: rest => .token (.percent (some c)) :: includePieces rest
  | c :: rest => .char c :: includePieces rest
termination_by cs => cs.length
decreasing_by
  · have hlt := length_lt_of_splitAtFirst (cons_ne_nil _ _) _h
    simp only [length_cons]
    omega
  · simp only [length_cons]
    omega
  · simp only [length_cons]
    omega

/-- The value of a percent sign with the character behind it. -/
def percentValue (hostname : Result String) : Option Char → Result String
  | some '%' => .ok "%"
  | some 'l' => (queryLocalHostnames hostname).map LocalHostnames.full
  | some 'L' => (queryLocalHostnames hostname).map LocalHostnames.short
  | some token => bail s!"OpenSSH Include percent token %{token} is not supported yet"
  | none => bail "OpenSSH Include ends with an incomplete percent token"

def includeValue (lookup : String → Result String) (hostname : Result String) :
    IncludeToken → Result String
  | .percent token => percentValue hostname token
  | .environment name => Variables.variableValue lookup name
  | .unterminated =>
      bail "OpenSSH Include contains an unterminated $\x7b...\x7d environment expansion"

namespace Variables

variable {lookup : String → Result String} {hostname : Result String} {maxBytes : UInt64}
  {output out value : String} {localNames localNames' : Option LocalHostnames}
  {cs before after : List Char}

/-! ## The percent signs -/

theorem pushBounded_eq_ok : pushBounded output value maxBytes = .ok out ↔
    out = output ++ value ∧ out.utf8ByteSize ≤ maxBytes.toNat := by
  have hmax := maxBytes.toNat_lt
  rw [pushBounded, check_bind_eq_ok, check_bind_eq_ok, bailIf_eq_ok,
    bailIf_eq_ok, pure_eq_ok, Except.ok.injEq]
  constructor
  · rintro ⟨-, hsize, rfl⟩
    refine ⟨rfl, ?_⟩
    rw [String.utf8ByteSize_append]
    omega
  · rintro ⟨rfl, hsize⟩
    rw [String.utf8ByteSize_append] at hsize
    exact ⟨by omega, by omega, rfl⟩

/-- Names that are known are those of the host. -/
def Consistent (hostname : Result String) (localNames : Option LocalHostnames) : Prop :=
  ∀ names ∈ localNames, queryLocalHostnames hostname = .ok names

theorem localHostnames_eq (h : Consistent hostname localNames) :
    localHostnames hostname localNames = queryLocalHostnames hostname := by
  cases localNames with
  | none => rfl
  | some names => exact (h names rfl).symm

/-- A percent sign has its value whether or not the names are known already. -/
theorem percentReplacement_eq (h : Consistent hostname localNames) (token : Char) :
    (percentReplacement hostname localNames token).map Prod.fst =
        percentValue hostname (some token) ∧
      ∀ replacement, percentReplacement hostname localNames token = .ok replacement →
        Consistent hostname replacement.2 := by
  unfold percentReplacement
  rw [localHostnames_eq h]
  split
  · exact ⟨rfl, fun replacement heq ↦ Except.ok.inj heq ▸ h⟩
  · rw [percentValue]
    cases hquery : queryLocalHostnames hostname with
    | error e => exact ⟨rfl, fun _ heq ↦ nomatch heq⟩
    | ok names =>
        refine ⟨rfl, fun replacement heq ↦ ?_⟩
        cases heq
        rintro names ⟨⟩
        exact hquery
  · rw [percentValue]
    cases hquery : queryLocalHostnames hostname with
    | error e => exact ⟨rfl, fun _ heq ↦ nomatch heq⟩
    | ok names =>
        refine ⟨rfl, fun replacement heq ↦ ?_⟩
        cases heq
        rintro names ⟨⟩
        exact hquery
  · next hpercent hfull hshort =>
    refine ⟨?_, fun _ heq ↦ nomatch heq⟩
    unfold percentValue
    split
    · next heq => exact absurd (Option.some.inj heq) hpercent
    · next heq => exact absurd (Option.some.inj heq) hfull
    · next heq => exact absurd (Option.some.inj heq) hshort
    · next heq =>
      cases heq
      rfl
    · next heq => cases heq

/-- A longer text than another is within the limit only if that one is. -/
theorem size_of_append {front : String} (h : (front ++ value).utf8ByteSize ≤ maxBytes.toNat) :
    front.utf8ByteSize ≤ maxBytes.toNat := by
  rw [String.utf8ByteSize_append] at h
  omega

/-- The loop puts the expansion of the pieces behind the output, within the limit. -/
theorem expandPercentTokens_eq_ok (h : Consistent hostname localNames) :
    (∃ names, expandPercentTokens hostname maxBytes output localNames cs = .ok (out, names)) ↔
      ∃ text, expand (percentValue hostname) (percentPieces cs) = .ok text ∧
        out = output ++ text ∧ out.utf8ByteSize ≤ maxBytes.toNat := by
  fun_induction expandPercentTokens hostname maxBytes output localNames cs with
  | case1 output localNames cs hsplit =>
      have hpieces : percentPieces cs = cs.map Template.Piece.char := by
        have happend := percentPieces_append (notMem_of_splitAtFirst_eq_none hsplit) []
        rw [append_nil] at happend
        rw [happend]
        exact append_nil _
      rw [hpieces, expand_chars]
      simp only [bind_eq_ok, pushBounded_eq_ok, pure_eq_ok, Except.ok.injEq]
      constructor
      · rintro ⟨names, _, ⟨rfl, hsize⟩, heq⟩
        cases heq
        exact ⟨_, rfl, rfl, hsize⟩
      · rintro ⟨_, rfl, rfl, hsize⟩
        exact ⟨_, _, ⟨rfl, hsize⟩, rfl⟩
  | case2 output localNames cs before hsplit =>
      rw [splitAtFirst_eq_some hsplit, append_assoc,
        percentPieces_append (notMem_of_splitAtFirst hsplit)]
      refine iff_of_false ?_ ?_
      · rintro ⟨names, hfail⟩
        obtain ⟨_, -, hfail⟩ := bind_eq_ok.mp hfail
        cases hfail
      · rintro ⟨text, htext, -⟩
        obtain ⟨back, hback, -⟩ := expand_chars_append.mp htext
        cases hback
  | case3 output localNames cs before token after hsplit ih =>
      rw [splitAtFirst_eq_some hsplit, append_assoc,
        percentPieces_append (notMem_of_splitAtFirst hsplit)]
      obtain ⟨hvalue, hconsistent⟩ := percentReplacement_eq h token
      have hpieces : percentPieces (['%'] ++ token :: after) =
          .token (some token) :: percentPieces after := rfl
      rw [hpieces]
      simp only [expand_chars_append, expand_token_cons, bind_eq_ok, pushBounded_eq_ok]
      constructor
      · rintro ⟨names, _, ⟨rfl, -⟩, ⟨replacement, localNames'⟩, hreplacement, _, ⟨rfl, -⟩, hrest⟩
        obtain ⟨text, htext, rfl, hsize⟩ :=
          (ih _ _ (hconsistent _ hreplacement)).mp ⟨names, hrest⟩
        rw [hreplacement] at hvalue
        exact ⟨_, ⟨_, ⟨replacement, text, hvalue.symm, htext, rfl⟩, rfl⟩,
          by simp only [String.append_assoc], hsize⟩
      · rintro ⟨_, ⟨_, ⟨replacement, text, hreplacement, htext, rfl⟩, rfl⟩, rfl, hsize⟩
        rw [← hvalue, map_eq_ok] at hreplacement
        obtain ⟨⟨replacement, localNames'⟩, hreplacement, rfl⟩ := hreplacement
        have hassoc : output ++ (String.ofList before ++ (replacement ++ text)) =
            output ++ String.ofList before ++ replacement ++ text := by
          simp only [String.append_assoc]
        obtain ⟨names, hrest⟩ :=
          (ih _ _ (hconsistent _ hreplacement)).mpr ⟨text, htext, hassoc, hsize⟩
        rw [hassoc] at hsize
        exact ⟨names, _, ⟨rfl, size_of_append (size_of_append hsize)⟩, _, hreplacement, _,
          ⟨rfl, size_of_append hsize⟩, hrest⟩

/-- The names that are known after a text are those of the host as well. -/
theorem consistent_expandPercentTokens (h : Consistent hostname localNames)
    (hok : expandPercentTokens hostname maxBytes output localNames cs = .ok (out, localNames')) :
    Consistent hostname localNames' := by
  fun_induction expandPercentTokens hostname maxBytes output localNames cs with
  | case1 output localNames cs hsplit =>
      obtain ⟨_, -, heq⟩ := bind_eq_ok.mp hok
      cases heq
      exact h
  | case2 output localNames cs before hsplit =>
      obtain ⟨_, -, hfail⟩ := bind_eq_ok.mp hok
      cases hfail
  | case3 output localNames cs before token after hsplit ih =>
      obtain ⟨_, -, hok⟩ := bind_eq_ok.mp hok
      obtain ⟨replacement, hreplacement, hok⟩ := bind_eq_ok.mp hok
      obtain ⟨_, -, hok⟩ := bind_eq_ok.mp hok
      exact ih _ _ ((percentReplacement_eq h token).2 _ hreplacement) hok

/-! ## The variables -/

theorem includePieces_percent (c : Char) (cs : List Char) :
    includePieces ('%' :: c :: cs) = .token (.percent (some c)) :: includePieces cs := by
  rw [includePieces]

/-- A character that starts no variable and is no percent sign is a piece of its own. -/
theorem includePieces_cons {c : Char} (hc : c ≠ '%') (hvariable : ¬['$', '\x7b'] <+: c :: cs) :
    includePieces (c :: cs) = .char c :: includePieces cs := by
  rw [includePieces.eq_def]
  split
  · next h => cases h
  · next h =>
    cases h
    exact absurd (prefix_append ['$', '\x7b'] _) hvariable
  · next h =>
    injection h with h
    exact absurd h hc
  · next h =>
    injection h with h
    exact absurd h hc
  · next h =>
    cases h
    rfl

/-- A text without variables has the pieces that its percent signs make. -/
theorem expand_includePieces_of_none (hnone : splitAtFirst ['$', '\x7b'] cs = none) :
    expand (includeValue lookup hostname) (includePieces cs) =
      expand (percentValue hostname) (percentPieces cs) := by
  fun_induction percentPieces cs with
  | case1 =>
      rw [includePieces]
      rfl
  | case2 =>
      rw [includePieces]
      rfl
  | case3 c rest ih =>
      have hrest := (splitAtFirst_cons_eq_none (splitAtFirst_cons_eq_none hnone).2).2
      rw [includePieces, expand, expand, ih hrest]
      rfl
  | case4 c rest hend htoken ih =>
      have hc : c ≠ '%' := by
        rintro rfl
        cases rest with
        | nil => exact hend rfl rfl
        | cons token rest => exact htoken token rest rfl rfl
      obtain ⟨hvariable, hrest⟩ := splitAtFirst_cons_eq_none hnone
      rw [includePieces_cons hc hvariable, expand, expand, ih hrest]
      rfl

/-- The pieces in front of the first variable are those of the text in front of it. -/
theorem expand_includePieces_append
    (hsome : splitAtFirst ['$', '\x7b'] (before ++ '$' :: '\x7b' :: after) = some (before, after)) :
    expand (includeValue lookup hostname) (includePieces (before ++ '$' :: '\x7b' :: after)) = .ok out ↔
      ∃ front back, expand (percentValue hostname) (percentPieces before) = .ok front ∧
        expand (includeValue lookup hostname) (includePieces ('$' :: '\x7b' :: after)) = .ok back ∧
        out = front ++ back := by
  fun_induction percentPieces before generalizing out with
  | case1 =>
      simp only [nil_append, expand, Except.ok.injEq, exists_and_left, exists_eq_left',
        String.empty_append, exists_eq_right']
  | case2 =>
      have hpieces : includePieces (['%'] ++ '$' :: '\x7b' :: after) =
          .token (.percent (some '$')) :: includePieces ('\x7b' :: after) :=
        includePieces_percent '$' _
      rw [hpieces]
      refine iff_of_false (fun hok ↦ ?_) ?_
      · obtain ⟨_, _, hvalue, -⟩ := expand_token_cons.mp hok
        cases hvalue
      · rintro ⟨_, _, hfront, -⟩
        cases hfront
  | case3 c rest ih =>
      have hrest := (splitAtFirst_cons_cons (splitAtFirst_cons_cons hsome).2).2
      rw [cons_append, cons_append, includePieces_percent, expand_token_cons]
      constructor
      · rintro ⟨text, _, htext, htail, rfl⟩
        obtain ⟨front, back, hfront, hback, rfl⟩ := (ih hrest).mp htail
        exact ⟨text ++ front, back, expand_token_cons.mpr ⟨text, front, htext, hfront, rfl⟩, hback,
          String.append_assoc.symm⟩
      · rintro ⟨_, back, hpieces, hback, rfl⟩
        obtain ⟨text, front, htext, hfront, rfl⟩ := expand_token_cons.mp hpieces
        exact ⟨text, front ++ back, htext, (ih hrest).mpr ⟨front, back, hfront, hback, rfl⟩,
          String.append_assoc⟩
  | case4 c rest hend htoken ih =>
      have hc : c ≠ '%' := by
        rintro rfl
        cases rest with
        | nil => exact hend rfl rfl
        | cons token rest => exact htoken token rest rfl rfl
      rw [cons_append] at hsome
      obtain ⟨hvariable, hrest⟩ := splitAtFirst_cons_cons hsome
      rw [cons_append, includePieces_cons hc hvariable, expand_char_cons]
      constructor
      · rintro ⟨_, htail, rfl⟩
        obtain ⟨front, back, hfront, hback, rfl⟩ := (ih hrest).mp htail
        exact ⟨String.singleton c ++ front, back, expand_char_cons.mpr ⟨front, hfront, rfl⟩, hback,
          String.append_assoc.symm⟩
      · rintro ⟨_, back, hpieces, hback, rfl⟩
        obtain ⟨front, hfront, rfl⟩ := expand_char_cons.mp hpieces
        exact ⟨front ++ back, (ih hrest).mpr ⟨front, back, hfront, hback, rfl⟩, String.append_assoc⟩

theorem expandVariables_eq_ok (h : Consistent hostname localNames) :
    expandVariables lookup hostname maxBytes output localNames cs = .ok out ↔
      ∃ text, expand (includeValue lookup hostname) (includePieces cs) = .ok text ∧
        out = output ++ text ∧ out.utf8ByteSize ≤ maxBytes.toNat := by
  fun_induction expandVariables lookup hostname maxBytes output localNames cs generalizing out with
  | case1 output localNames cs hnone =>
      rw [expand_includePieces_of_none hnone, ← expandPercentTokens_eq_ok h]
      simp only [bind_eq_ok, pure_eq_ok, Except.ok.injEq]
      constructor
      · rintro ⟨⟨_, names⟩, hok, rfl⟩
        exact ⟨names, hok⟩
      · rintro ⟨names, hok⟩
        exact ⟨_, hok, rfl⟩
  | case2 output localNames cs before after hsome ih =>
      have hcs : cs = before ++ '$' :: '\x7b' :: after := by
        rw [splitAtFirst_eq_some hsome, append_assoc]
        rfl
      rw [hcs] at hsome ⊢
      simp only [expand_includePieces_append hsome, bind_eq_ok]
      cases hname : splitAtFirst ['\x7d'] after with
      | none =>
          have hpieces : includePieces ('$' :: '\x7b' :: after) = [.token .unterminated] := by
            rw [includePieces, hname]
          rw [hpieces]
          refine iff_of_false ?_ ?_
          · rintro ⟨_, -, hok⟩
            split at hok
            · cases hok
            · next heq => cases heq
          · rintro ⟨_, ⟨_, back, -, hback, -⟩, -⟩
            cases hback
      | some split =>
          obtain ⟨name, rest⟩ := split
          have hpieces : includePieces ('$' :: '\x7b' :: after) =
              .token (.environment (String.ofList name)) :: includePieces rest := by
            rw [includePieces, hname]
          rw [hpieces]
          constructor
          · rintro ⟨⟨_, names⟩, hfront, hok⟩
            obtain ⟨text, htext, hok⟩ := bind_eq_ok.mp hok
            obtain ⟨_, hpush, hok⟩ := bind_eq_ok.mp hok
            obtain ⟨rfl, -⟩ := pushBounded_eq_ok.mp hpush
            obtain ⟨back, hback, rfl, hsize⟩ :=
              (ih names name rest hname _ (consistent_expandPercentTokens h hfront)).mp hok
            obtain ⟨front, hfrontText, rfl, -⟩ := (expandPercentTokens_eq_ok h).mp ⟨names, hfront⟩
            exact ⟨_, ⟨front, _, hfrontText, expand_token_cons.mpr ⟨text, back, htext, hback, rfl⟩, rfl⟩,
              by simp only [String.append_assoc], hsize⟩
          · rintro ⟨_, ⟨front, _, hfront, hpieces', rfl⟩, rfl, hsize⟩
            obtain ⟨text, back, htext, hback, rfl⟩ := expand_token_cons.mp hpieces'
            have hassoc : output ++ (front ++ (text ++ back)) = output ++ front ++ text ++ back := by
              simp only [String.append_assoc]
            have hsize' := hassoc ▸ hsize
            obtain ⟨names, hfront⟩ := (expandPercentTokens_eq_ok h).mpr
              ⟨front, hfront, rfl, size_of_append (size_of_append hsize')⟩
            refine ⟨(output ++ front, names), hfront, ?_⟩
            refine bind_eq_ok.mpr ⟨text, htext, bind_eq_ok.mpr
              ⟨output ++ front ++ text, ?_, ?_⟩⟩
            · exact pushBounded_eq_ok.mpr ⟨rfl, size_of_append hsize'⟩
            · exact (ih names name rest hname _ (consistent_expandPercentTokens h hfront)).mpr
                ⟨back, hback, hassoc, hsize⟩

end Variables

/-! ## The whole path -/

/-- Whether what stands in a path can be replaced: a variable that has a name and is set, a
percent sign of one of the three kinds. -/
def IncludeToken.Known (lookup : String → Result String) : IncludeToken → Prop
  | .percent none => False
  | .percent (some token) => token ∈ ['%', 'l', 'L']
  | .environment name => name ≠ "" ∧ (lookup name).isOk = true
  | .unterminated => False

variable {lookup : String → Result String} {hostname : Result String}

theorem known_of_includeValue {t : IncludeToken} {text : String}
    (h : includeValue lookup hostname t = .ok text) : t.Known lookup := by
  cases t with
  | unterminated => cases h
  | environment name =>
      obtain ⟨hname, hlookup⟩ := check_bind_eq_ok.mp h
      exact ⟨bailIf_eq_ok.mp hname, isOk_iff.mpr ⟨text, Result.context_eq_ok.mp hlookup⟩⟩
  | percent token =>
      cases token with
      | none => cases h
      | some token =>
          change token ∈ ['%', 'l', 'L']
          rw [includeValue, percentValue.eq_def] at h
          split at h
          · next heq => cases heq; decide
          · next heq => cases heq; decide
          · next heq => cases heq; decide
          · cases h
          · cases h

/-- The expansion of a path is that of its pieces, each read once, as long as it keeps to the
limit. The part of it that looks at percent signs alone is so too, behind any output. A path in
which something is not known has no expansion. -/
theorem expandIncludeEnvironmentWith_single_pass (lookup : String → Result String)
    (hostname : Result String) (value : String) (maxBytes : UInt64) :
    (expandIncludeEnvironmentWith lookup hostname value maxBytes).toOption =
        within maxBytes.toNat
          (expand (includeValue lookup hostname) (includePieces value.toList)).toOption ∧
      (∀ output, ((Variables.expandPercentTokens hostname maxBytes output none
          value.toList).map Prod.fst).toOption =
        within maxBytes.toNat
          ((expand (percentValue hostname) (percentPieces value.toList)).toOption.map
            (output ++ ·))) ∧
      ((∃ t, .token t ∈ includePieces value.toList ∧ ¬t.Known lookup) →
        (expandIncludeEnvironmentWith lookup hostname value maxBytes).isOk = false) := by
  have hnone : Variables.Consistent hostname none := fun _ hmem ↦ nomatch hmem
  have hok (out : String) : expandIncludeEnvironmentWith lookup hostname value maxBytes = .ok out ↔
      expand (includeValue lookup hostname) (includePieces value.toList) = .ok out ∧
        out.utf8ByteSize ≤ maxBytes.toNat := by
    rw [expandIncludeEnvironmentWith, Variables.expandVariables_eq_ok hnone]
    simp only [String.empty_append]
    constructor
    · rintro ⟨text, htext, rfl, hsize⟩
      exact ⟨htext, hsize⟩
    · exact fun h ↦ ⟨out, h.1, rfl, h.2⟩
  refine ⟨?_, fun output ↦ ?_, ?_⟩
  · refine Option.ext fun out ↦ ?_
    rw [toOption_eq_some, hok, within, Option.filter_eq_some_iff, toOption_eq_some,
      decide_eq_true_eq]
  · refine Option.ext fun out ↦ ?_
    rw [toOption_eq_some, map_eq_ok, within, Option.filter_eq_some_iff,
      decide_eq_true_eq, Option.map_eq_some_iff]
    simp only [toOption_eq_some]
    constructor
    · rintro ⟨⟨_, names⟩, hfront, rfl⟩
      obtain ⟨text, htext, heq, hsize⟩ := (Variables.expandPercentTokens_eq_ok hnone).mp ⟨names, hfront⟩
      exact ⟨⟨text, htext, heq.symm⟩, hsize⟩
    · rintro ⟨⟨text, htext, rfl⟩, hsize⟩
      obtain ⟨names, hfront⟩ := (Variables.expandPercentTokens_eq_ok hnone).mpr ⟨text, htext, rfl, hsize⟩
      exact ⟨_, hfront, rfl⟩
  · rintro ⟨t, ht, hunknown⟩
    rw [isOk_eq_false_iff]
    intro out hout
    obtain ⟨text, htext⟩ := isOk_iff.mp
      (expand_isOk_iff.mp (isOk_iff.mpr ⟨out, ((hok out).mp hout).1⟩) t ht)
    exact hunknown (known_of_includeValue htext)

end KaduoxSsh.OpenSsh
