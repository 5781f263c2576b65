import KaduoxSsh.Core.ProxyJump

/-!
# The grammar of a hop

The texts that are read as a hop: `[ssh://][user@]host[:port]`, where the host is a name
or an address of IPv6. Which texts these are is `Accepted`, with the port written in any
way that is read. A port is meant to be a plain number from 1 on. Zero is read as well,
and behind brackets a plus sign may stand in front of the digits, since only the other
form of a port is checked for digits before it is read as a number.
-/

namespace KaduoxSsh.Core

open Text Result

variable {value port before after : List Char} {c sep : Char} {n : UInt16} {kind : HostKind}
  {text : List Char}

/-! ## Ports -/

/-- Digits that spell a number. -/
def Spells (digits : List Char) (n : Nat) : Prop :=
  digits ≠ [] ∧ (∀ c ∈ digits, c.isDigit = true) ∧ Nat.ofDigitChars 10 digits 0 = n

theorem readPortDigits_eq_ok {k : Nat} (hk : k < 2 ^ 16) : readPortDigits k value = .ok n ↔
    (∀ c ∈ value, c.isDigit = true) ∧ Nat.ofDigitChars 10 value k = n.toNat := by
  induction value generalizing k with
  | nil =>
      rw [readPortDigits, Except.ok.injEq, Nat.ofDigitChars_nil, UInt16.ofNat_eq_iff_mod_eq_toNat,
        Nat.mod_eq_of_lt hk]
      exact (and_iff_right fun c hc ↦ absurd hc List.not_mem_nil).symm
  | cons c rest ih =>
      rw [readPortDigits, List.forall_mem_cons, Nat.ofDigitChars_cons, Nat.mul_comm 10 k]
      by_cases hc : c.isDigit = true
      · rw [if_pos hc]
        dsimp only
        by_cases hlt : k * 10 + (c.toNat - '0'.toNat) < 2 ^ 16
        · rw [if_pos hlt, ih hlt]
          simp only [hc, true_and]
        · rw [if_neg hlt]
          refine iff_of_false (bail_ne_ok _ _) fun h ↦ hlt ?_
          -- Further digits only make the number larger.
          have hn := n.toNat_lt
          have hpos : 0 < 10 ^ rest.length := Nat.pow_pos (by decide)
          have hle := Nat.le_mul_of_pos_left (k * 10 + (c.toNat - '0'.toNat)) hpos
          rw [Nat.ofDigitChars_eq_ofDigitChars_zero] at h
          omega
      · rw [if_neg hc]
        exact iff_of_false (bail_ne_ok _ _) fun h ↦ hc h.1.1

/-- A port is digits, or a plus sign and digits. -/
theorem parsePort_eq_ok : parsePort port = .ok n ↔
    Spells port n.toNat ∨ ∃ digits, port = '+' :: digits ∧ Spells digits n.toNat := by
  have hplus : ('+' : Char).isDigit = false := rfl
  have hzero : 0 < 2 ^ 16 := by decide
  unfold parsePort
  split
  · refine iff_of_false (bail_ne_ok _ _) ?_
    rintro (⟨hne, -⟩ | ⟨digits, heq, -⟩)
    · exact hne rfl
    · cases heq
  · next c rest =>
    rw [readPortDigits_eq_ok hzero]
    constructor
    · exact fun h ↦ .inr ⟨_, rfl, List.cons_ne_nil c rest, h⟩
    · rintro (⟨-, hdigits, -⟩ | ⟨digits, heq, -, h⟩)
      · rw [hdigits '+' List.mem_cons_self] at hplus
        cases hplus
      · cases heq
        exact h
  · next hne hnot =>
    rw [readPortDigits_eq_ok hzero]
    constructor
    · exact fun h ↦ .inl ⟨hne, h⟩
    · rintro (⟨-, h⟩ | ⟨digits, rfl, hdigits, -⟩)
      · exact h
      · cases digits with
        | nil => exact absurd rfl hdigits
        | cons c rest => exact absurd rfl (hnot c rest)

theorem spells_toDigits (n : Nat) : Spells (Nat.toDigits 10 n) n :=
  ⟨Nat.toDigits_ne_nil, fun _ hc ↦ Nat.isDigit_of_mem_toDigits (by decide) (by decide) hc,
    Nat.ofDigitChars_ten_toDigits⟩

theorem Spells.notMem {digits : List Char} {k : Nat} (h : Spells digits k)
    (hc : c.isDigit = false) : c ∉ digits := by
  intro hmem
  rw [h.2.1 c hmem] at hc
  cases hc

/-! ## Cutting at a separator -/

theorem splitOnce_eq_none : splitOnce sep value = none ↔ sep ∉ value := by
  have hdrop : value.dropWhile (· ≠ sep) = [] ↔ sep ∉ value := by
    rw [List.dropWhile_eq_nil_iff]
    constructor
    · exact fun h hmem ↦ of_decide_eq_true (h sep hmem) rfl
    · exact fun h c hc ↦ decide_eq_true fun heq ↦ h (heq ▸ hc)
  rw [← hdrop, splitOnce]
  split <;> simp_all

theorem splitOnce_eq_some : splitOnce sep value = some (before, after) ↔
    value = before ++ sep :: after ∧ sep ∉ before := by
  induction value generalizing before with
  | nil => simp [splitOnce]
  | cons c rest ih =>
      by_cases hc : c = sep
      · subst hc
        have hsplit : splitOnce c (c :: rest) = some ([], rest) := by simp [splitOnce]
        rw [hsplit, Option.some.injEq, Prod.mk.injEq]
        constructor
        · rintro ⟨rfl, rfl⟩
          exact ⟨rfl, List.not_mem_nil⟩
        · rintro ⟨heq, hnot⟩
          cases before with
          | nil =>
              injection heq with _ hrest
              exact ⟨rfl, hrest⟩
          | cons d ds =>
              injection heq with hd
              exact absurd (hd ▸ List.mem_cons_self) hnot
      · have hsplit : splitOnce sep (c :: rest) =
            (splitOnce sep rest).map fun split ↦ (c :: split.1, split.2) := by
          rw [splitOnce, splitOnce]
          simp only [List.dropWhile_cons, List.takeWhile_cons, decide_eq_true hc, ne_eq,
            if_true]
          cases rest.dropWhile fun c ↦ decide ¬c = sep <;> rfl
        rw [hsplit, Option.map_eq_some_iff]
        constructor
        · rintro ⟨⟨front, back⟩, hrest, heq⟩
          cases heq
          obtain ⟨rfl, hnot⟩ := ih.mp hrest
          exact ⟨rfl, not_or.mpr ⟨Ne.symm hc, hnot⟩ ∘ List.mem_cons.mp⟩
        · rintro ⟨heq, hnot⟩
          cases before with
          | nil =>
              injection heq with hcsep
              exact absurd hcsep hc
          | cons d ds =>
              injection heq with hd hrest
              subst hd
              have hds : sep ∉ ds := fun hmem ↦ hnot (List.mem_cons_of_mem _ hmem)
              exact ⟨(ds, after), ih.mpr ⟨hrest, hds⟩, rfl⟩

/-- What is behind the last separator does not depend on how a text is cut at it. -/
theorem eq_of_last_separator {a b a' b' : List Char} (hb : sep ∉ b) (hb' : sep ∉ b')
    (h : a ++ sep :: b = a' ++ sep :: b') : b = b' := by
  have hrev := congrArg List.reverse h
  simp only [List.reverse_append, List.reverse_cons, List.append_assoc, List.singleton_append]
    at hrev
  have hsplit := splitOnce_eq_some.mpr ⟨hrev, mt List.mem_reverse.mp hb'⟩
  have hsplit' := splitOnce_eq_some.mpr
    ⟨Eq.refl (b.reverse ++ sep :: a.reverse), mt List.mem_reverse.mp hb⟩
  rw [hsplit', Option.some.injEq, Prod.mk.injEq] at hsplit
  exact List.reverse_inj.mp hsplit.1

/-! ## The grammar -/

/-- How the host of a hop is written. -/
inductive HostKind where
  | name
  | bracketed
  | bare
deriving DecidableEq, Repr

/-- The characters that cannot stand in a host. -/
def HostKind.excluded : HostKind → List Char
  | .name => ['@', '[', ']', ':']
  | .bracketed => ['@', ']']
  | .bare => ['@', '[', ']']

/-- The text of a host: a name, or an address of IPv6 with or without brackets. -/
def HostText (kind : HostKind) (host text : List Char) : Prop :=
  (∀ c ∈ host, isWhitespace c = false ∧ isControl c = false ∧ c ∉ kind.excluded) ∧
    match kind with
    | .name => host ≠ [] ∧ text = host
    | .bracketed => Ipv6Addr.parses host = true ∧ text = '[' :: (host ++ [']'])
    | .bare => Ipv6Addr.parses host = true ∧ 2 ≤ host.count ':' ∧ text = host

/-- The text of a user, which an `@` ends. -/
def UserText : Option String → List Char → Prop
  | none, text => text = []
  | some user, text => user ≠ "" ∧ '@' ∉ user.toList ∧ text = user.toList ++ ['@']

/-- The scheme in front of a destination. -/
def SchemeText (scheme destination : List Char) : Prop :=
  scheme = "ssh://".toList ∧ '/' ∉ destination ∧ '?' ∉ destination ∧ '#' ∉ destination ∨
    scheme = [] ∧ ¬"://".toList <:+: destination

/-- A text that is cut into scheme, user, host and port, with a relation for the ways of writing
a port. -/
def IsHop (PortText : HostKind → Option UInt16 → List Char → Prop) (spec : List Char)
    (t : JumpTarget) : Prop :=
  ∃ scheme userText hostText portText kind,
    spec = scheme ++ (userText ++ (hostText ++ portText)) ∧
      SchemeText scheme (userText ++ (hostText ++ portText)) ∧ UserText t.user userText ∧
      HostText kind t.hostAlias.toList hostText ∧ PortText kind t.port portText

/-- A port as it is meant to be: a plain number from 1 on, and none behind a bare address. -/
def PlainPort (kind : HostKind) : Option UInt16 → List Char → Prop
  | none, text => text = []
  | some n, text => kind ≠ .bare ∧ 0 < n.toNat ∧
      ∃ digits, Spells digits n.toNat ∧ text = ':' :: digits

/-- The other ports that are read: zero, and a number with a plus sign behind brackets. -/
def SlippedPort (kind : HostKind) : Option UInt16 → List Char → Prop
  | none, _ => False
  | some n, text => ∃ digits, Spells digits n.toNat ∧
      (kind ≠ .bare ∧ n = 0 ∧ text = ':' :: digits ∨
        kind = .bracketed ∧ text = ':' :: '+' :: digits)

def ReadPort (kind : HostKind) (port : Option UInt16) (text : List Char) : Prop :=
  PlainPort kind port text ∨ SlippedPort kind port text

theorem readPort_some_iff : ReadPort kind (some n) text ↔
    ∃ digits, Spells digits n.toNat ∧ (kind ≠ .bare ∧ text = ':' :: digits ∨
      kind = .bracketed ∧ text = ':' :: '+' :: digits) := by
  constructor
  · rintro (⟨hkind, -, digits, hdigits, htext⟩ | ⟨digits, hdigits, ⟨hkind, -, htext⟩ | hplus⟩)
    · exact ⟨digits, hdigits, .inl ⟨hkind, htext⟩⟩
    · exact ⟨digits, hdigits, .inl ⟨hkind, htext⟩⟩
    · exact ⟨digits, hdigits, .inr hplus⟩
  · rintro ⟨digits, hdigits, ⟨hkind, htext⟩ | hplus⟩
    · by_cases hn : n = 0
      · exact .inr ⟨digits, hdigits, .inl ⟨hkind, hn, htext⟩⟩
      · refine .inl ⟨hkind, Nat.pos_of_ne_zero fun h ↦ hn ?_, digits, hdigits, htext⟩
        exact UInt16.toNat_inj.mp h
    · exact .inr ⟨digits, hdigits, .inr hplus⟩

theorem readPort_none_iff : ReadPort kind none text ↔ text = [] := or_iff_left id

/-! ## Hosts with ports -/

variable {host : String} {portOption : Option UInt16}

theorem notMem_port (h : ReadPort kind portOption text) (hc : c.isDigit = false)
    (hcolon : c ≠ ':') (hplus : c ≠ '+') : c ∉ text := by
  cases portOption with
  | none =>
      rw [readPort_none_iff.mp h]
      exact List.not_mem_nil
  | some n =>
      obtain ⟨digits, hdigits, ⟨-, rfl⟩ | ⟨-, rfl⟩⟩ := readPort_some_iff.mp h
      · exact not_or.mpr ⟨hcolon, hdigits.notMem hc⟩ ∘ List.mem_cons.mp
      · refine not_or.mpr ⟨hcolon, ?_⟩ ∘ List.mem_cons.mp
        exact not_or.mpr ⟨hplus, hdigits.notMem hc⟩ ∘ List.mem_cons.mp

/-- White space and control characters are no part of a port. -/
theorem not_digit_of_blank (h : (isWhitespace c || isControl c) = true) :
    c.isDigit = false ∧ c ≠ ':' ∧ c ≠ '+' := by
  refine ⟨?_, ?_, ?_⟩
  · rw [← Bool.not_eq_true]
    intro hdigit
    obtain ⟨hlow, hhigh⟩ := Char.isDigit_iff_toNat.mp hdigit
    have hall : ∀ n ∈ List.range 58, '0'.toNat ≤ n →
        (isWhitespace (Char.ofNat n) || isControl (Char.ofNat n)) = false := by decide
    have hc := hall c.toNat (List.mem_range.mpr (Nat.lt_succ_of_le hhigh)) hlow
    rw [Char.ofNat_toNat, h] at hc
    cases hc
  · rintro rfl
    revert h
    decide
  · rintro rfl
    revert h
    decide

/-- What is behind the brackets of an address. -/
def readSuffix (address : String) (suffix : List Char) : Result (String × Option UInt16) :=
  match suffix with
  | [] => return (address, none)
  | ':' :: port =>
      if port = [] then Result.bail "ProxyJump port cannot be empty"
      else do
        let port ← context "invalid ProxyJump port" (parsePort port)
        return (address, some port)
  | _ => Result.bail s!"invalid ProxyJump address suffix: {String.ofList suffix}"

/-- The port between a bracket and the end. -/
theorem parseBracketed_eq_ok {rest : List Char} :
    parseBracketed rest = .ok (host, portOption) ↔ ∃ portText,
      rest = host.toList ++ ']' :: portText ∧ ']' ∉ host.toList ∧
        Ipv6Addr.parses host.toList = true ∧ ReadPort .bracketed portOption portText := by
  have hempty : Ipv6Addr.parses [] = false := by decide
  have hport (suffix : List Char) (address : String) :
      readSuffix address suffix = .ok (host, portOption) ↔
        address = host ∧ ReadPort .bracketed portOption suffix := by
    unfold readSuffix
    split
    · rw [pure_eq_ok, Except.ok.injEq, Prod.mk.injEq]
      refine and_congr_right fun _ ↦ ?_
      cases portOption with
      | none => exact iff_of_true rfl (readPort_none_iff.mpr rfl)
      | some n =>
          refine iff_of_false (by simp) fun h ↦ ?_
          obtain ⟨digits, -, ⟨-, heq⟩ | ⟨-, heq⟩⟩ := readPort_some_iff.mp h <;> cases heq
    · next port =>
      cases portOption with
      | none =>
          refine iff_of_false (fun h ↦ ?_) fun h ↦ by
            cases readPort_none_iff.mp h.2
          rw [ite_bail_eq_ok, bind_eq_ok] at h
          obtain ⟨-, n, -, heq⟩ := h
          cases heq
      | some n =>
          simp only [ite_bail_eq_ok, bind_eq_ok, context_eq_ok,
            parsePort_eq_ok, pure_eq_ok, Except.ok.injEq, Prod.mk.injEq, Option.some.injEq,
            readPort_some_iff, List.cons.injEq, true_and, ne_eq, reduceCtorEq, not_false_eq_true]
          constructor
          · rintro ⟨-, k, hread, rfl, rfl⟩
            refine ⟨rfl, ?_⟩
            rcases hread with hdigits | ⟨digits, rfl, hdigits⟩
            · exact ⟨port, hdigits, .inl rfl⟩
            · exact ⟨digits, hdigits, .inr rfl⟩
          · rintro ⟨rfl, digits, hdigits, rfl | rfl⟩
            · exact ⟨hdigits.1, n, .inl hdigits, rfl, rfl⟩
            · exact ⟨List.cons_ne_nil _ _, n, .inr ⟨digits, rfl, hdigits⟩, rfl, rfl⟩
    · next hnil hcolon =>
      refine iff_of_false (bail_ne_ok _ _) fun h ↦ ?_
      cases portOption with
      | none => exact hnil (readPort_none_iff.mp h.2)
      | some n =>
          obtain ⟨digits, -, ⟨-, heq⟩ | ⟨-, heq⟩⟩ := readPort_some_iff.mp h.2
          · exact hcolon _ heq
          · exact hcolon _ heq
  rw [parseBracketed, bind_eq_ok]
  constructor
  · rintro ⟨⟨address, suffix⟩, hsplit, h⟩
    obtain ⟨rfl, hnot⟩ := splitOnce_eq_some.mp (ofOption_eq_ok.mp hsplit)
    obtain ⟨-, h⟩ := check_bind_eq_ok.mp h
    obtain ⟨hparses, h⟩ := check_bind_eq_ok.mp h
    obtain ⟨rfl, hread⟩ := (hport suffix (String.ofList address)).mp h
    rw [String.toList_ofList]
    exact ⟨suffix, rfl, hnot,
      by simpa using bailIf_eq_ok.mp (context_eq_ok.mp hparses), hread⟩
  · rintro ⟨suffix, rfl, hnot, hparses, hread⟩
    have hsplit : splitOnce ']' (host.toList ++ ']' :: suffix) = some (host.toList, suffix) :=
      splitOnce_eq_some.mpr ⟨rfl, hnot⟩
    refine ⟨(host.toList, suffix), ofOption_eq_ok.mpr hsplit, ?_⟩
    refine check_bind_eq_ok.mpr ⟨bailIf_eq_ok.mpr fun hnil ↦ ?_,
      check_bind_eq_ok.mpr ⟨context_eq_ok.mpr (bailIf_eq_ok.mpr ?_), ?_⟩⟩
    · rw [hnil, hempty] at hparses
      cases hparses
    · rw [hparses]
      exact Bool.noConfusion
    · exact (hport suffix (String.ofList host.toList)).mpr ⟨String.ofList_toList, hread⟩

/-- Around a host there are at most brackets. -/
theorem HostText.mem (hhost : HostText kind value text) (hc : c ∈ text) :
    c ∈ value ∨ c = '[' ∨ c = ']' := by
  cases kind with
  | name => exact .inl (hhost.2.2 ▸ hc)
  | bare => exact .inl (hhost.2.2.2 ▸ hc)
  | bracketed =>
      rw [hhost.2.2] at hc
      rcases List.mem_cons.mp hc with rfl | hc
      · exact .inr (.inl rfl)
      · rcases List.mem_append.mp hc with hc | hc
        · exact .inl hc
        · exact .inr (.inr (List.mem_singleton.mp hc))

theorem HostText.notMem_at (hhost : HostText kind value text) : '@' ∉ text := by
  intro hmem
  rcases hhost.mem hmem with hmem | heq | heq
  · have hnot := (hhost.1 '@' hmem).2.2
    cases kind <;> exact hnot List.mem_cons_self
  · cases heq
  · cases heq

theorem HostText.port_clean {hostText portText : List Char} (hhost : HostText kind value hostText)
    (hport : ReadPort kind portOption portText) :
    ∀ c ∈ hostText ++ portText, (isWhitespace c || isControl c) = false := by
  intro c hc
  rcases List.mem_append.mp hc with hc | hc
  · rcases hhost.mem hc with hc | rfl | rfl
    · obtain ⟨hblank, hcontrol, -⟩ := hhost.1 c hc
      rw [hblank, hcontrol, Bool.or_self]
    · decide
    · decide
  · rw [← Bool.not_eq_true]
    intro hblank
    obtain ⟨hdigit, hcolon, hplus⟩ := not_digit_of_blank hblank
    exact notMem_port hport hdigit hcolon hplus hc

/-- A host without brackets and its port, if the text has at most one colon or is an address. -/
def readUnbracketed (value : List Char) : Result (String × Option UInt16) :=
  if '[' ∈ value ∨ ']' ∈ value then
    Result.bail s!"invalid ProxyJump bracket placement: {debug (String.ofList value)}"
  else match value.count ':' with
    | 0 => return (String.ofList value, none)
    | 1 => do
        let (host, port) ← ofOption "invalid ProxyJump host:port specification"
          (rsplitOnce ':' value)
        Result.bailIf (host = []) "ProxyJump host cannot be empty"
        Result.bailIf (port = []) "ProxyJump port cannot be empty"
        Result.bailIf (¬port.all Char.isDigit) s!"invalid ProxyJump port: {String.ofList port}"
        return (String.ofList host, some (← parsePort port))
    | _ => do
        context "invalid unbracketed ProxyJump IPv6 address"
          (Result.bailIf (Ipv6Addr.parses value = false) "invalid IPv6 address syntax")
        return (String.ofList value, none)

theorem parseHostPort_bracketed {rest : List Char}
    (hclean : ∀ c ∈ '[' :: rest, (isWhitespace c || isControl c) = false) :
    parseHostPort ('[' :: rest) = parseBracketed rest := by
  have hany : ¬('[' :: rest).any (fun c ↦ isWhitespace c || isControl c) = true := by
    rw [List.any_eq_true]
    rintro ⟨c, hc, hblank⟩
    rw [hclean c hc] at hblank
    cases hblank
  rw [parseHostPort, Result.bailIf, if_neg (List.cons_ne_nil _ _), bind_ok, Result.bailIf,
    if_neg hany, bind_ok]

theorem parseHostPort_unbracketed (hne : value ≠ []) (hopen : ∀ rest, value ≠ '[' :: rest)
    (hclean : ∀ c ∈ value, (isWhitespace c || isControl c) = false) :
    parseHostPort value = readUnbracketed value := by
  have hany : ¬value.any (fun c ↦ isWhitespace c || isControl c) = true := by
    rw [List.any_eq_true]
    rintro ⟨c, hc, hblank⟩
    rw [hclean c hc] at hblank
    cases hblank
  rw [parseHostPort, Result.bailIf, if_neg hne, bind_ok, Result.bailIf, if_neg hany,
    bind_ok]
  · rfl
  · exact hopen

/-- With one colon, the host is in front of it and the port behind. -/
theorem readUnbracketed_one (hbrackets : ¬('[' ∈ value ∨ ']' ∈ value))
    (hcount : value.count ':' = 1) :
    readUnbracketed value = .ok (host, portOption) ↔ ∃ digits n, portOption = some n ∧
      Spells digits n.toNat ∧ host.toList ≠ [] ∧ value = host.toList ++ ':' :: digits := by
  simp only [readUnbracketed, if_neg hbrackets, hcount]
  rw [bind_eq_ok]
  have hplus : ('+' : Char).isDigit = false := rfl
  constructor
  · rintro ⟨⟨front, digits⟩, hsplit, h⟩
    obtain ⟨rfl, -⟩ := rsplitOnce_eq_some (ofOption_eq_ok.mp hsplit)
    obtain ⟨hfront, h⟩ := check_bind_eq_ok.mp h
    obtain ⟨-, h⟩ := check_bind_eq_ok.mp h
    obtain ⟨hdigits, h⟩ := check_bind_eq_ok.mp h
    obtain ⟨n, hport, heq⟩ := bind_eq_ok.mp h
    cases heq
    rw [String.toList_ofList]
    refine ⟨digits, n, rfl, ?_, bailIf_eq_ok.mp hfront, rfl⟩
    rcases parsePort_eq_ok.mp hport with hspells | ⟨more, rfl, -⟩
    · exact hspells
    · have hall := List.all_eq_true.mp (not_not.mp (bailIf_eq_ok.mp hdigits))
      rw [hall '+' List.mem_cons_self] at hplus
      cases hplus
  · rintro ⟨digits, n, rfl, hdigits, hhost, rfl⟩
    have hsplit : rsplitOnce ':' (host.toList ++ ':' :: digits) = some (host.toList, digits) := by
      cases hlast : rsplitOnce ':' (host.toList ++ ':' :: digits) with
      | none => exact absurd hlast (rsplitOnce_ne_none _ _)
      | some split =>
          obtain ⟨front, back⟩ := split
          obtain ⟨heq, hback⟩ := rsplitOnce_eq_some hlast
          have hsame := eq_of_last_separator (hdigits.notMem rfl) hback heq
          subst hsame
          rw [List.append_cancel_right heq]
    refine ⟨_, ofOption_eq_ok.mpr hsplit, ?_⟩
    refine check_bind_eq_ok.mpr ⟨bailIf_eq_ok.mpr hhost,
      check_bind_eq_ok.mpr ⟨bailIf_eq_ok.mpr hdigits.1,
      check_bind_eq_ok.mpr ⟨bailIf_eq_ok.mpr (not_not.mpr ?_),
      bind_eq_ok.mpr ⟨n, parsePort_eq_ok.mpr (.inl hdigits), ?_⟩⟩⟩⟩
    · exact List.all_eq_true.mpr hdigits.2.1
    · rw [String.ofList_toList]
      rfl

theorem readUnbracketed_zero (hbrackets : ¬('[' ∈ value ∨ ']' ∈ value))
    (hcount : value.count ':' = 0) :
    readUnbracketed value = .ok (host, portOption) ↔ value = host.toList ∧ portOption = none := by
  simp only [readUnbracketed, if_neg hbrackets, hcount]
  rw [pure_eq_ok, Except.ok.injEq, Prod.mk.injEq, ← String.toList_inj, String.toList_ofList,
    eq_comm (a := none)]

theorem readUnbracketed_many {k : Nat} (hbrackets : ¬('[' ∈ value ∨ ']' ∈ value))
    (hcount : value.count ':' = k + 2) :
    readUnbracketed value = .ok (host, portOption) ↔
      Ipv6Addr.parses value = true ∧ value = host.toList ∧ portOption = none := by
  simp only [readUnbracketed, if_neg hbrackets, hcount]
  rw [check_bind_eq_ok, context_eq_ok, bailIf_eq_ok, Bool.not_eq_false,
    pure_eq_ok, Except.ok.injEq, Prod.mk.injEq, ← String.toList_inj, String.toList_ofList,
    eq_comm (a := none)]

theorem HostKind.notMem_bare : c ∉ HostKind.excluded .bare ↔ c ≠ '@' ∧ c ≠ '[' ∧ c ≠ ']' := by
  simp [HostKind.excluded]

theorem HostKind.notMem_name :
    c ∉ HostKind.excluded .name ↔ c ∉ HostKind.excluded .bare ∧ c ≠ ':' := by
  simp [HostKind.excluded, and_assoc]

/-- Without brackets, what is read is a name and its port, or an address alone. -/
theorem hostText_of_readUnbracketed (hne : value ≠ [])
    (hclean : ∀ c ∈ value, isWhitespace c = false ∧ isControl c = false ∧ c ≠ '@')
    (h : readUnbracketed value = .ok (host, portOption)) :
    ∃ kind hostText portText, kind ≠ .bracketed ∧ value = hostText ++ portText ∧
      HostText kind host.toList hostText ∧ ReadPort kind portOption portText := by
  have hbrackets : ¬('[' ∈ value ∨ ']' ∈ value) := by
    intro hmem
    rw [readUnbracketed, if_pos hmem] at h
    cases h
  obtain ⟨hopen, hclose⟩ := not_or.mp hbrackets
  have hbare : ∀ c ∈ value, isWhitespace c = false ∧ isControl c = false ∧
      c ∉ HostKind.excluded .bare := by
    intro c hc
    obtain ⟨hblank, hcontrol, hat⟩ := hclean c hc
    refine ⟨hblank, hcontrol, HostKind.notMem_bare.mpr ⟨hat, ?_, ?_⟩⟩
    · exact fun heq ↦ hopen (heq ▸ hc)
    · exact fun heq ↦ hclose (heq ▸ hc)
  -- Text of the value without a colon can be a name.
  have hname {text : List Char} (hsub : ∀ c ∈ text, c ∈ value) (hcolon : ':' ∉ text) :
      ∀ c ∈ text, isWhitespace c = false ∧ isControl c = false ∧
        c ∉ HostKind.excluded .name := by
    intro c hc
    obtain ⟨hblank, hcontrol, hnot⟩ := hbare c (hsub c hc)
    exact ⟨hblank, hcontrol, HostKind.notMem_name.mpr ⟨hnot, fun heq ↦ hcolon (heq ▸ hc)⟩⟩
  match hcount : value.count ':' with
  | 0 =>
      obtain ⟨rfl, rfl⟩ := (readUnbracketed_zero hbrackets hcount).mp h
      have hcolon := List.count_eq_zero.mp hcount
      exact ⟨.name, host.toList, [], nofun, (List.append_nil _).symm,
        ⟨hname (fun c hc ↦ hc) hcolon, hne, rfl⟩, readPort_none_iff.mpr rfl⟩
  | 1 =>
      obtain ⟨digits, n, rfl, hdigits, hhost, rfl⟩ := (readUnbracketed_one hbrackets hcount).mp h
      have hcolon : ':' ∉ host.toList := by
        rw [← List.count_eq_zero]
        rw [List.count_append, List.count_cons_self] at hcount
        omega
      exact ⟨.name, host.toList, ':' :: digits, nofun, rfl,
        ⟨hname (fun c ↦ List.mem_append_left _) hcolon, hhost, rfl⟩,
        readPort_some_iff.mpr ⟨digits, hdigits, .inl ⟨nofun, rfl⟩⟩⟩
  | k + 2 =>
      obtain ⟨hparses, rfl, rfl⟩ := (readUnbracketed_many hbrackets hcount).mp h
      exact ⟨.bare, host.toList, [], nofun, (List.append_nil _).symm,
        ⟨hbare, hparses, by omega, rfl⟩, readPort_none_iff.mpr rfl⟩

theorem HostText.clean_of_unbracketed {hostText : List Char}
    (hhost : HostText kind value hostText) (hkind : kind ≠ .bracketed) :
    hostText = value ∧ value ≠ [] ∧ '[' ∉ value ∧ ']' ∉ value := by
  obtain ⟨hclean, hhost⟩ := hhost
  have hopen : '[' ∉ value := by
    intro hmem
    have hnot := (hclean '[' hmem).2.2
    cases kind <;> simp_all [HostKind.excluded]
  have hclose : ']' ∉ value := by
    intro hmem
    have hnot := (hclean ']' hmem).2.2
    cases kind <;> simp_all [HostKind.excluded]
  cases kind with
  | bracketed => exact absurd rfl hkind
  | name => exact ⟨hhost.2, hhost.1, hopen, hclose⟩
  | bare =>
      refine ⟨hhost.2.2, ?_, hopen, hclose⟩
      rintro rfl
      exact Nat.not_succ_le_zero 1 hhost.2.1

theorem readUnbracketed_of_hostText {hostText portText : List Char} (hkind : kind ≠ .bracketed)
    (hhost : HostText kind host.toList hostText) (hport : ReadPort kind portOption portText) :
    readUnbracketed (hostText ++ portText) = .ok (host, portOption) := by
  obtain ⟨rfl, hne, hopen, hclose⟩ := hhost.clean_of_unbracketed hkind
  have hbrackets : ¬('[' ∈ host.toList ++ portText ∨ ']' ∈ host.toList ++ portText) := by
    have hopen' : '[' ∉ portText := notMem_port hport rfl (by decide) (by decide)
    have hclose' : ']' ∉ portText := notMem_port hport rfl (by decide) (by decide)
    simp [hopen, hclose, hopen', hclose']
  cases kind with
  | bracketed => exact absurd rfl hkind
  | bare =>
      obtain ⟨-, hparses, hcount, -⟩ := hhost
      cases portOption with
      | some n =>
          obtain ⟨digits, -, ⟨hbare, -⟩ | ⟨hbracketed, -⟩⟩ := readPort_some_iff.mp hport
          · exact absurd rfl hbare
          · cases hbracketed
      | none =>
          obtain rfl := readPort_none_iff.mp hport
          rw [List.append_nil] at hbrackets ⊢
          exact (readUnbracketed_many hbrackets (Nat.sub_add_cancel hcount).symm).mpr
            ⟨hparses, rfl, rfl⟩
  | name =>
      have hcolon : ':' ∉ host.toList := fun hmem ↦
        (HostKind.notMem_name.mp (hhost.1 ':' hmem).2.2).2 rfl
      rw [← List.count_eq_zero] at hcolon
      cases portOption with
      | none =>
          obtain rfl := readPort_none_iff.mp hport
          rw [List.append_nil] at hbrackets ⊢
          exact (readUnbracketed_zero hbrackets hcolon).mpr ⟨rfl, rfl⟩
      | some n =>
          obtain ⟨digits, hdigits, ⟨-, rfl⟩ | ⟨hbracketed, -⟩⟩ := readPort_some_iff.mp hport
          · have hcount : (host.toList ++ ':' :: digits).count ':' = 1 := by
              rw [List.count_append, List.count_cons_self, hcolon,
                List.count_eq_zero.mpr (hdigits.notMem rfl)]
            exact (readUnbracketed_one hbrackets hcount).mpr
              ⟨digits, n, rfl, hdigits, hne, rfl⟩
          · cases hbracketed

/-- What is read as a host and a port, when a user has been taken off. -/
theorem parseHostPort_eq_ok (hat : '@' ∉ value) :
    parseHostPort value = .ok (host, portOption) ↔ ∃ kind hostText portText,
      value = hostText ++ portText ∧ HostText kind host.toList hostText ∧
        ReadPort kind portOption portText := by
  constructor
  · intro h
    have hread := h
    unfold parseHostPort at hread
    obtain ⟨hne, hread⟩ := check_bind_eq_ok.mp hread
    have hne := bailIf_eq_ok.mp hne
    obtain ⟨hany, -⟩ := check_bind_eq_ok.mp hread
    have hclean : ∀ c ∈ value, (isWhitespace c || isControl c) = false := by
      simpa using bailIf_eq_ok.mp hany
    have hclean' : ∀ c ∈ value, isWhitespace c = false ∧ isControl c = false ∧ c ≠ '@' := by
      intro c hc
      obtain ⟨hblank, hcontrol⟩ := Bool.or_eq_false_iff.mp (hclean c hc)
      exact ⟨hblank, hcontrol, fun heq ↦ hat (heq ▸ hc)⟩
    by_cases hopen : ∃ rest, value = '[' :: rest
    · obtain ⟨rest, rfl⟩ := hopen
      rw [parseHostPort_bracketed hclean] at h
      obtain ⟨portText, rfl, hclose, hparses, hport⟩ := parseBracketed_eq_ok.mp h
      refine ⟨.bracketed, _, portText, ?_, ⟨?_, hparses, rfl⟩, hport⟩
      · rw [List.cons_append, List.append_assoc, List.singleton_append]
      · intro c hc
        obtain ⟨hblank, hcontrol, hat⟩ :=
          hclean' c (List.mem_cons_of_mem _ (List.mem_append_left _ hc))
        refine ⟨hblank, hcontrol, ?_⟩
        rw [HostKind.excluded, List.mem_pair, not_or]
        exact ⟨hat, fun heq ↦ hclose (heq ▸ hc)⟩
    · rw [parseHostPort_unbracketed hne (not_exists.mp hopen) hclean] at h
      obtain ⟨kind, hostText, portText, -, hread⟩ := hostText_of_readUnbracketed hne hclean' h
      exact ⟨kind, hostText, portText, hread⟩
  · rintro ⟨kind, hostText, portText, rfl, hhost, hport⟩
    have hclean := hhost.port_clean hport
    by_cases hkind : kind = .bracketed
    · subst hkind
      obtain ⟨hin, hparses, rfl⟩ := hhost
      have hclose : ']' ∉ host.toList := fun hmem ↦
        (hin ']' hmem).2.2 (List.mem_cons_of_mem _ List.mem_cons_self)
      rw [List.cons_append, List.append_assoc, List.singleton_append] at hclean ⊢
      rw [parseHostPort_bracketed hclean]
      exact parseBracketed_eq_ok.mpr ⟨portText, rfl, hclose, hparses, hport⟩
    · obtain ⟨rfl, hne, hopen, -⟩ := hhost.clean_of_unbracketed hkind
      have hfirst : ∀ rest, host.toList ++ portText ≠ '[' :: rest := by
        intro rest heq
        cases htext : host.toList with
        | nil => exact hne htext
        | cons c cs =>
            rw [htext, List.cons_append] at heq
            rw [htext, (List.cons.inj heq).1] at hopen
            exact hopen List.mem_cons_self
      rw [parseHostPort_unbracketed (List.append_ne_nil_of_left_ne_nil hne _) hfirst hclean]
      exact readUnbracketed_of_hostText hkind hhost hport

/-! ## A whole hop -/

/-- A hop with its host and port read. -/
def parseJump (spec : String) : Result JumpTarget := do
  let (user, hostPort) ← parseJumpDestination spec
  let (hostAlias, port) ← parseHostPort hostPort
  return ⟨user, hostAlias, port⟩

section

variable {spec : String} {user : Option String} {destination hostPort : List Char}

theorem jumpDestination_eq_ok (hne : destination ≠ []) :
    jumpDestination spec = .ok destination ↔
      ∃ scheme, spec.toList = scheme ++ destination ∧ SchemeText scheme destination := by
  rw [jumpDestination]
  cases hbegins : stripPrefix spec "ssh://" with
  | some uri =>
      have hspec := stripPrefix_eq_some.mp hbegins
      dsimp only
      rw [ite_bail_eq_ok, ite_bail_eq_ok, Except.ok.injEq]
      constructor
      · rintro ⟨-, hclean, rfl⟩
        obtain ⟨hslash, hquery, hfragment⟩ := (not_or.mp hclean).imp_right not_or.mp
        exact ⟨_, hspec, .inl ⟨rfl, hslash, hquery, hfragment⟩⟩
      · rintro ⟨_, htext, ⟨rfl, hslash, hquery, hfragment⟩ | ⟨rfl, hmark⟩⟩
        · obtain rfl := List.append_cancel_left (hspec.symm.trans htext)
          refine ⟨?_, not_or.mpr ⟨hslash, not_or.mpr ⟨hquery, hfragment⟩⟩, rfl⟩
          rintro rfl
          exact hne rfl
        · rw [List.nil_append] at htext
          exact absurd (htext ▸ hspec ▸ ⟨"ssh".toList, uri.toList, by simp⟩) hmark
  | none =>
      have hspec := stripPrefix_eq_none.mp hbegins
      dsimp only
      rw [ite_bail_eq_ok, Except.ok.injEq, contains, decide_eq_true_eq]
      constructor
      · rintro ⟨hmark, rfl⟩
        exact ⟨[], rfl, .inr ⟨rfl, hmark⟩⟩
      · rintro ⟨_, htext, ⟨rfl, -⟩ | ⟨rfl, hmark⟩⟩
        · exact absurd ⟨_, htext.symm⟩ hspec
        · rw [List.nil_append] at htext
          exact ⟨htext ▸ hmark, htext⟩

theorem parseJumpDestination_eq_ok (hne : hostPort ≠ []) :
    parseJumpDestination spec = .ok (user, hostPort) ↔ ∃ scheme userText,
      spec.toList = scheme ++ (userText ++ hostPort) ∧ SchemeText scheme (userText ++ hostPort) ∧
        UserText user userText ∧ '@' ∉ hostPort := by
  rw [parseJumpDestination, bind_eq_ok]
  constructor
  · rintro ⟨destination, hdest, h⟩
    obtain ⟨hcount, h⟩ := ite_bail_eq_ok.mp h
    cases hsplit : splitOnce '@' destination with
    | none =>
        rw [hsplit] at h
        cases h
        obtain ⟨scheme, hspec⟩ := (jumpDestination_eq_ok hne).mp hdest
        exact ⟨scheme, [], hspec.1, hspec.2, rfl, splitOnce_eq_none.mp hsplit⟩
    | some split =>
        obtain ⟨userText, after⟩ := split
        rw [hsplit] at h
        obtain ⟨rfl, hnot⟩ := splitOnce_eq_some.mp hsplit
        obtain ⟨huser, h⟩ := ite_bail_eq_ok.mp h
        obtain ⟨-, h⟩ := ite_bail_eq_ok.mp h
        cases h
        obtain ⟨scheme, hspec⟩ := (jumpDestination_eq_ok (by simp)).mp hdest
        have hafter : '@' ∉ hostPort := by
          rw [← List.count_eq_zero]
          rw [List.count_append, List.count_cons_self] at hcount
          omega
        refine ⟨scheme, userText ++ ['@'], ?_, ?_, ⟨?_, ?_, ?_⟩, hafter⟩
        · rw [List.append_assoc userText, List.singleton_append]
          exact hspec.1
        · rw [List.append_assoc, List.singleton_append]
          exact hspec.2
        · intro hempty
          have htext : userText = (String.ofList userText).toList := String.toList_ofList.symm
          rw [htext, hempty, String.toList_empty] at huser
          exact huser rfl
        · rwa [String.toList_ofList]
        · rw [String.toList_ofList]
  · rintro ⟨scheme, userText, hspec, hscheme, huser, hat⟩
    have hdestNe : userText ++ hostPort ≠ [] := List.append_ne_nil_of_right_ne_nil _ hne
    refine ⟨_, (jumpDestination_eq_ok hdestNe).mpr ⟨scheme, hspec, hscheme⟩, ?_⟩
    cases user with
    | none =>
        obtain rfl := huser
        rw [List.nil_append, splitOnce_eq_none.mpr hat]
        exact ite_bail_eq_ok.mpr ⟨by simp [List.count_eq_zero.mpr hat], rfl⟩
    | some user =>
        obtain ⟨huser, hnot, rfl⟩ := huser
        rw [List.append_assoc, List.singleton_append, splitOnce_eq_some.mpr ⟨rfl, hnot⟩]
        refine ite_bail_eq_ok.mpr ⟨?_, ite_bail_eq_ok.mpr ⟨?_,
          ite_bail_eq_ok.mpr ⟨hne, ?_⟩⟩⟩
        · rw [List.count_append, List.count_cons_self, List.count_eq_zero.mpr hat,
            List.count_eq_zero.mpr hnot]
          exact Nat.lt_irrefl 1
        · exact fun h ↦ huser (String.toList_eq_nil_iff.mp h)
        · rw [String.ofList_toList]

end

/-- A hop is read from the texts of the grammar, and from no others. -/
theorem parseJump_eq_ok {spec : String} {t : JumpTarget} :
    parseJump spec = .ok t ↔ IsHop ReadPort spec.toList t := by
  have hempty : ∀ read, parseHostPort [] ≠ .ok read := fun read h ↦ nomatch h
  rw [parseJump, bind_eq_ok]
  constructor
  · rintro ⟨⟨user, hostPort⟩, hdest, h⟩
    obtain ⟨⟨hostAlias, port⟩, hread, heq⟩ := bind_eq_ok.mp h
    cases heq
    have hne : hostPort ≠ [] := by
      rintro rfl
      exact hempty _ hread
    obtain ⟨scheme, userText, hspec, hscheme, huser, hat⟩ :=
      (parseJumpDestination_eq_ok hne).mp hdest
    obtain ⟨kind, hostText, portText, rfl, hhost, hport⟩ := (parseHostPort_eq_ok hat).mp hread
    exact ⟨scheme, userText, hostText, portText, kind, hspec, hscheme, huser, hhost, hport⟩
  · rintro ⟨scheme, userText, hostText, portText, kind, hspec, hscheme, huser, hhost, hport⟩
    have hat : '@' ∉ hostText ++ portText := by
      rw [List.mem_append, not_or]
      exact ⟨hhost.notMem_at, notMem_port hport rfl (by decide) (by decide)⟩
    have hread := (parseHostPort_eq_ok hat).mpr ⟨kind, hostText, portText, rfl, hhost, hport⟩
    have hne : hostText ++ portText ≠ [] := by
      intro hnil
      rw [hnil] at hread
      exact hempty _ hread
    refine ⟨(t.user, hostText ++ portText), ?_, ?_⟩
    · exact (parseJumpDestination_eq_ok hne).mpr ⟨scheme, userText, hspec, hscheme, huser, hat⟩
    · exact bind_eq_ok.mpr ⟨_, hread, rfl⟩

/-! ## Writing a hop -/

namespace JumpTarget

/-- The user of a hop with its `@`. -/
def userText (t : JumpTarget) : List Char := t.user.elim [] fun user ↦ user.toList ++ ['@']

/-- The host of a hop, in brackets when it is an address of IPv6. -/
def hostText (t : JumpTarget) : List Char :=
  if Ipv6Addr.parses t.hostAlias.toList then '[' :: (t.hostAlias.toList ++ [']'])
  else t.hostAlias.toList

def portText (t : JumpTarget) : List Char :=
  t.port.elim [] fun port ↦ ':' :: Nat.toDigits 10 port.toNat

/-- The canonical text of a hop. -/
def format (t : JumpTarget) : String := String.ofList (t.userText ++ (t.hostText ++ t.portText))

end JumpTarget

/-- The mark of a scheme ends in a slash, so it is in front of what has none. -/
theorem mark_in_front {front back : List Char} (hback : '/' ∉ back)
    (h : "://".toList <:+: front ++ back) : "://".toList <:+: front := by
  rcases List.infix_append_iff_ne_nil.mp h with h | h | ⟨left, right, -, hright, heq, -, hbegins⟩
  · exact h
  · exact absurd (h.subset (by decide)) hback
  · have hlast := congrArg List.getLast? heq
    rw [List.getLast?_append_of_ne_nil _ hright] at hlast
    exact absurd (hbegins.subset (List.mem_of_getLast? hlast.symm)) hback

/-- The mark of a scheme is not around a character that it does not have. -/
theorem mark_beside {front back : List Char} (hc : c ∉ "://".toList)
    (h : "://".toList <:+: front ++ c :: back) :
    "://".toList <:+: front ∨ "://".toList <:+: back := by
  have hfirst {l : List Char} (hl : l ≠ []) (hbegins : l <+: c :: back) : c ∈ l := by
    cases l with
    | nil => exact absurd rfl hl
    | cons d ds => exact (List.cons_prefix_cons.mp hbegins).1 ▸ List.mem_cons_self
  rcases List.infix_append_iff_ne_nil.mp h with h | h | ⟨left, right, -, hright, heq, -, hbegins⟩
  · exact .inl h
  · rcases List.infix_cons_iff.mp h with hbegins | h
    · exact absurd (hfirst (by decide) hbegins) hc
    · exact .inr h
  · exact absurd (heq ▸ List.mem_append_right left (hfirst hright hbegins)) hc

section

variable {spec : List Char} {t : JumpTarget}

/-- A host as it is written canonically, which is not bare. -/
theorem HostText.written {kind : HostKind} {text : List Char}
    (h : HostText kind t.hostAlias.toList text) :
    ∃ kind, kind ≠ .bare ∧ HostText kind t.hostAlias.toList t.hostText := by
  by_cases hparses : Ipv6Addr.parses t.hostAlias.toList = true
  · refine ⟨.bracketed, nofun, ?_, hparses, if_pos hparses⟩
    intro c hc
    obtain ⟨hblank, hcontrol, hnot⟩ := h.1 c hc
    refine ⟨hblank, hcontrol, fun hmem ↦ hnot ?_⟩
    cases kind <;> simp_all [HostKind.excluded]
  · cases kind with
    | name => exact ⟨.name, nofun, h.1, h.2.1, if_neg hparses⟩
    | bracketed => exact absurd h.2.1 hparses
    | bare => exact absurd h.2.1 hparses

/-- Brackets around a host make no mark of a scheme. -/
theorem HostText.written_mark {kind : HostKind} {text front : List Char}
    (h : HostText kind t.hostAlias.toList text) (hmark : "://".toList <:+: front ++ t.hostText) :
    "://".toList <:+: front ++ text := by
  by_cases hparses : Ipv6Addr.parses t.hostAlias.toList = true
  · rw [JumpTarget.hostText, if_pos hparses] at hmark
    rcases mark_beside (by decide) hmark with hfront | hhost
    · exact hfront.trans (List.prefix_append _ _).isInfix
    · have hhost := mark_in_front (by decide) hhost
      refine hhost.trans (List.IsInfix.trans ?_ (List.suffix_append _ _).isInfix)
      cases kind with
      | name => exact h.2.2 ▸ List.infix_rfl
      | bare => exact h.2.2.2 ▸ List.infix_rfl
      | bracketed => exact h.2.2 ▸ ⟨['['], [']'], rfl⟩
  · rw [JumpTarget.hostText, if_neg hparses] at hmark
    cases kind with
    | name => exact h.2.2 ▸ hmark
    | bracketed => exact absurd h.2.1 hparses
    | bare => exact absurd h.2.1 hparses

/-- A hop that was read can be read again from its canonical text. -/
theorem IsHop.format (h : IsHop ReadPort spec t) : IsHop ReadPort t.format.toList t := by
  obtain ⟨scheme, userText, hostText, portText, kind, -, hscheme, huser, hhost, hport⟩ := h
  obtain rfl : userText = t.userText := by
    rw [JumpTarget.userText]
    cases huserOption : t.user with
    | none =>
        rw [huserOption] at huser
        exact huser
    | some user =>
        rw [huserOption] at huser
        exact huser.2.2
  have hmark : ¬"://".toList <:+: t.userText ++ (hostText ++ portText) := by
    rcases hscheme with ⟨-, hslash, -⟩ | ⟨-, hmark⟩
    · exact fun h ↦ hslash (h.subset (by decide))
    · exact hmark
  have hslash : '/' ∉ t.portText := by
    rw [JumpTarget.portText]
    cases t.port with
    | none => exact List.not_mem_nil
    | some n => exact not_or.mpr ⟨by decide, (spells_toDigits _).notMem rfl⟩ ∘ List.mem_cons.mp
  obtain ⟨written, hwritten, hhost'⟩ := hhost.written
  refine ⟨[], t.userText, t.hostText, t.portText, written, ?_, .inr ⟨rfl, fun h ↦ ?_⟩, huser,
    hhost', ?_⟩
  · rw [JumpTarget.format, String.toList_ofList, List.nil_append]
  · rw [← List.append_assoc] at h
    have h := hhost.written_mark (mark_in_front hslash h)
    rw [← List.append_assoc] at hmark
    exact hmark (h.trans (List.prefix_append _ _).isInfix)
  · cases hn : t.port with
    | none => exact readPort_none_iff.mpr (by rw [JumpTarget.portText, hn, Option.elim_none])
    | some n =>
        refine readPort_some_iff.mpr ⟨_, spells_toDigits _, .inl ⟨hwritten, ?_⟩⟩
        rw [JumpTarget.portText, hn, Option.elim_some]

theorem isHop_read_iff :
    IsHop ReadPort spec t ↔ IsHop PlainPort spec t ∨ IsHop SlippedPort spec t := by
  constructor
  · rintro ⟨scheme, user, host, port, kind, hspec, hscheme, huser, hhost, hport | hport⟩
    · exact .inl ⟨scheme, user, host, port, kind, hspec, hscheme, huser, hhost, hport⟩
    · exact .inr ⟨scheme, user, host, port, kind, hspec, hscheme, huser, hhost, hport⟩
  · rintro (⟨scheme, user, host, port, kind, hspec, hscheme, huser, hhost, hport⟩ |
      ⟨scheme, user, host, port, kind, hspec, hscheme, huser, hhost, hport⟩)
    · exact ⟨scheme, user, host, port, kind, hspec, hscheme, huser, hhost, .inl hport⟩
    · exact ⟨scheme, user, host, port, kind, hspec, hscheme, huser, hhost, .inr hport⟩

/-- The two ways of writing a port exclude each other. -/
theorem IsHop.not_slipped (hplain : IsHop PlainPort spec t) : ¬IsHop SlippedPort spec t := by
  rintro ⟨scheme, user, host, port, kind, hspec, -, -, -, hslipped⟩
  obtain ⟨scheme', user', host', port', kind', hspec', -, -, -, hplain⟩ := hplain
  cases hn : t.port with
  | none =>
      rw [hn] at hslipped
      exact hslipped
  | some n =>
      rw [hn] at hslipped hplain
      obtain ⟨-, hpos, digits', hdigits', rfl⟩ := hplain
      obtain ⟨digits, hdigits, ⟨-, rfl, -⟩ | ⟨-, rfl⟩⟩ := hslipped
      · exact Nat.lt_irrefl 0 hpos
      · -- The digits are what follows the last colon, and a plus sign is no digit.
        have hcut := hspec.symm.trans hspec'
        simp only [← List.append_assoc] at hcut
        have hsign : ':' ∉ '+' :: digits :=
          not_or.mpr ⟨by decide, hdigits.notMem rfl⟩ ∘ List.mem_cons.mp
        have hsame := eq_of_last_separator hsign (hdigits'.notMem rfl) hcut
        have hplus : '+' ∉ digits' := hdigits'.notMem rfl
        exact hplus (hsame ▸ List.mem_cons_self)

end

/-- A hop is read from the grammar with plain ports, and again from its canonical text, exactly
when the port is no zero and has no plus sign. -/
theorem parseJump_plain_iff (spec : String) :
    (∀ t, parseJump spec = .ok t →
        IsHop PlainPort spec.toList t ∧ parseJump t.format = .ok t) ↔
      ¬∃ t, IsHop SlippedPort spec.toList t := by
  constructor
  · rintro hall ⟨t, hslipped⟩
    have hread := parseJump_eq_ok.mpr (isHop_read_iff.mpr (.inr hslipped))
    exact (hall t hread).1.not_slipped hslipped
  · intro hnot t hread
    have hhop := parseJump_eq_ok.mp hread
    refine ⟨?_, parseJump_eq_ok.mpr hhop.format⟩
    rcases isHop_read_iff.mp hhop with hplain | hslipped
    · exact hplain
    · exact absurd ⟨t, hslipped⟩ hnot

/-- A port of zero is read, and so is a plus sign in front of a port behind brackets. -/
theorem slipped_ports_are_read :
    (parseJump "host:0" = .ok ⟨none, "host", some 0⟩ ∧
        ¬IsHop PlainPort "host:0".toList ⟨none, "host", some 0⟩) ∧
      parseJump "[::1]:+22" = .ok ⟨none, "::1", some 22⟩ ∧
        ¬IsHop PlainPort "[::1]:+22".toList ⟨none, "::1", some 22⟩ := by
  refine ⟨⟨by decide, fun hplain ↦ ?_⟩, by decide, fun hplain ↦ hplain.not_slipped ?_⟩
  · obtain ⟨-, -, -, -, -, -, -, -, -, -, hpos, -⟩ := hplain
    exact absurd hpos (by decide)
  · have hspells : Spells ['2', '2'] (22 : UInt16).toNat := ⟨nofun, by decide, rfl⟩
    exact ⟨[], [], "[::1]".toList, ":+22".toList, .bracketed, rfl, .inr ⟨rfl, by decide⟩, rfl,
      ⟨by decide, by decide, rfl⟩, ['2', '2'], hspells, .inr ⟨rfl, rfl⟩⟩

end KaduoxSsh.Core
