import KaduoxSsh.Lib.Stream

/-!
# Exchanges over a connection

A computation that reads from one stream and writes to another. It gives a value, fails, or
waits for more to arrive, and leaves the connection in each case.

`Follows` tells which words a computation reads, what it writes and which value it gives then: it
gives a value exactly when what has arrived begins with such a word, and what is behind the word
is left. `Tells` which messages are written, also when there is no value. Both are composed
along sequences.
-/

namespace KaduoxSsh

/-- The two directions of a connection. -/
structure Duplex (β : Type) where
  reader : Reader β
  writer : Writer β

/-- A computation on a connection. There is no result while more symbols are awaited. -/
def Exchange (β α : Type) : Type := Duplex β → Option (Result α) × Duplex β

namespace Exchange

variable {β α γ : Type}

protected def pure (a : α) : Exchange β α := fun duplex ↦ (some (.ok a), duplex)

protected def bind (x : Exchange β α) (f : α → Exchange β γ) : Exchange β γ := fun duplex ↦
  match x duplex with
  | (some (.ok a), duplex) => f a duplex
  | (some (.error e), duplex) => (some (.error e), duplex)
  | (none, duplex) => (none, duplex)

instance : Monad (Exchange β) where
  pure := Exchange.pure
  bind := Exchange.bind

/-- A computation without a connection. -/
def ofResult (x : Result α) : Exchange β α := fun duplex ↦ (some x, duplex)

def readExact (count : Nat) : Exchange β (List β) := fun duplex ↦
  match duplex.reader.readExact count with
  | some (.ok (word, reader)) => (some (.ok word), { duplex with reader })
  | some (.error kind) => (some (Result.io kind kind.description), duplex)
  | none => (none, duplex)

def writeAll (word : List β) : Exchange β Unit := fun duplex ↦
  match duplex.writer.writeAll word with
  | (.ok (), writer) => (some (.ok ()), { duplex with writer })
  | (.error kind, writer) => (some (Result.io kind kind.description), { duplex with writer })

section

variable {x : Exchange β α} {f : α → Exchange β γ} {a : α} {e : AnyError}
  {duplex middle : Duplex β}

theorem bind_of_ok (h : x duplex = (some (.ok a), middle)) : (x >>= f) duplex = f a middle := by
  change Exchange.bind x f duplex = _
  rw [Exchange.bind, h]

theorem bind_of_error (h : x duplex = (some (.error e), middle)) :
    (x >>= f) duplex = (some (.error e), middle) := by
  change Exchange.bind x f duplex = _
  rw [Exchange.bind, h]

theorem bind_of_none (h : x duplex = (none, middle)) : (x >>= f) duplex = (none, middle) := by
  change Exchange.bind x f duplex = _
  rw [Exchange.bind, h]

end

/-- A sequence gives a value exactly when both of its stages do. -/
theorem bind_eq_ok {x : Exchange β α} {f : α → Exchange β γ} {c : γ} {duplex duplex' : Duplex β} :
    (x >>= f) duplex = (some (.ok c), duplex') ↔
      ∃ a middle, x duplex = (some (.ok a), middle) ∧ f a middle = (some (.ok c), duplex') := by
  rcases hx : x duplex with ⟨_ | e | a, middle⟩
  · rw [bind_of_none hx]
    refine iff_of_false (fun h ↦ ?_) ?_
    · cases congrArg Prod.fst h
    · rintro ⟨_, _, heq, -⟩
      cases congrArg Prod.fst heq
  · rw [bind_of_error hx]
    refine iff_of_false (fun h ↦ ?_) ?_
    · cases congrArg Prod.fst h
    · rintro ⟨_, _, heq, -⟩
      cases congrArg Prod.fst heq
  · rw [bind_of_ok hx]
    constructor
    · exact fun h ↦ ⟨a, middle, rfl, h⟩
    · rintro ⟨a, middle, heq, h⟩
      cases heq
      exact h

/-! ## Scripts -/

/-- What a computation reads and writes on its way to a value. -/
abbrev Script (β α : Type) : Type := List β → List β → α → Prop

/-- A computation gives a value exactly when a word that goes with it has arrived and there is room
for what is written. -/
structure Follows (x : Exchange β α) (script : Script β α) : Prop where
  sound : ∀ duplex duplex' a, x duplex = (some (.ok a), duplex') →
    ∃ word out, script word out a ∧ duplex.reader.symbols = word ++ duplex'.reader.symbols ∧
      duplex.writer.Takes out.length ∧ duplex'.writer = duplex.writer.push out
  complete : ∀ duplex word out a rest, script word out a →
    duplex.reader.symbols = word ++ rest → duplex.writer.Takes out.length →
    ∃ duplex', x duplex = (some (.ok a), duplex') ∧ duplex'.reader.symbols = rest ∧
      duplex'.writer = duplex.writer.push out

namespace Follows

variable {x : Exchange β α} {script script' : Script β α}

theorem congr (h : Follows x script)
    (hsame : ∀ word out a, script word out a ↔ script' word out a) : Follows x script' := by
  have heq : script = script' := by
    funext word out a
    exact propext (hsame word out a)
  exact heq ▸ h

theorem pure (a : α) :
    Follows (Pure.pure a : Exchange β α) fun word out b ↦ word = [] ∧ out = [] ∧ b = a where
  sound := by
    rintro duplex _ _ ⟨⟩
    exact ⟨[], [], ⟨rfl, rfl, rfl⟩, rfl, fun _ _ _ ↦ Nat.zero_le _, duplex.writer.push_nil.symm⟩
  complete := by
    rintro duplex _ _ _ rest ⟨rfl, rfl, rfl⟩ hsymbols -
    exact ⟨duplex, rfl, hsymbols, duplex.writer.push_nil.symm⟩

theorem ofResult (result : Result α) :
    Follows (Exchange.ofResult result : Exchange β α) fun word out a ↦
      word = [] ∧ out = [] ∧ result = .ok a where
  sound := by
    rintro duplex _ _ ⟨⟩
    exact ⟨[], [], ⟨rfl, rfl, rfl⟩, rfl, fun _ _ _ ↦ Nat.zero_le _, duplex.writer.push_nil.symm⟩
  complete := by
    rintro duplex _ _ _ rest ⟨rfl, rfl, rfl⟩ hsymbols -
    exact ⟨duplex, rfl, hsymbols, duplex.writer.push_nil.symm⟩

theorem readExact (count : Nat) :
    Follows (Exchange.readExact count : Exchange β (List β)) fun word out a ↦
      word.length = count ∧ out = [] ∧ a = word where
  sound := by
    intro duplex duplex' a h
    rw [Exchange.readExact] at h
    split at h
    · next word reader hread =>
      cases h
      obtain ⟨hlength, hsymbols, -⟩ := Reader.readExact_eq_ok hread
      exact ⟨a, [], ⟨hlength, rfl, rfl⟩, hsymbols, fun _ _ _ ↦ Nat.zero_le _,
        duplex.writer.push_nil.symm⟩
    · cases h
    · cases h
  complete := by
    rintro duplex word _ _ rest ⟨rfl, rfl, rfl⟩ hsymbols -
    obtain ⟨reader, hread, hrest, -⟩ := Reader.readExact_append hsymbols
    refine ⟨{ duplex with reader }, ?_, hrest, duplex.writer.push_nil.symm⟩
    rw [Exchange.readExact, hread]

theorem writeAll (message : List β) :
    Follows (Exchange.writeAll message) fun word out _ ↦ word = [] ∧ out = message where
  sound := by
    intro duplex duplex' a h
    rw [Exchange.writeAll] at h
    by_cases htakes : duplex.writer.Takes message.length
    · rw [Writer.writeAll_of_takes htakes] at h
      cases h
      exact ⟨[], message, ⟨rfl, rfl⟩, rfl, htakes, rfl⟩
    · obtain ⟨kind, writer, hwrite, -⟩ := Writer.writeAll_of_not_takes htakes
      rw [hwrite] at h
      cases h
  complete := by
    rintro duplex _ _ _ rest ⟨rfl, rfl⟩ hsymbols htakes
    refine ⟨{ duplex with writer := duplex.writer.push _ }, ?_, hsymbols, rfl⟩
    rw [Exchange.writeAll, Writer.writeAll_of_takes htakes]

theorem bind {f : α → Exchange β γ} {next : α → Script β γ} (h : Follows x script)
    (hnext : ∀ a, Follows (f a) (next a)) :
    Follows (x >>= f) fun word out c ↦ ∃ a word₁ word₂ out₁ out₂, word = word₁ ++ word₂ ∧
      out = out₁ ++ out₂ ∧ script word₁ out₁ a ∧ next a word₂ out₂ c where
  sound := by
    intro duplex duplex' c hrun
    obtain ⟨a, middle, hx, hf⟩ := bind_eq_ok.mp hrun
    obtain ⟨word₁, out₁, hscript, hsymbols, htakes, hwriter⟩ := h.sound _ _ _ hx
    obtain ⟨word₂, out₂, hscript', hsymbols', htakes', hwriter'⟩ := (hnext a).sound _ _ _ hf
    rw [hwriter, Writer.takes_push htakes] at htakes'
    refine ⟨_, _, ⟨a, word₁, word₂, out₁, out₂, rfl, rfl, hscript, hscript'⟩, ?_, ?_, ?_⟩
    · rw [hsymbols, hsymbols', List.append_assoc]
    · rwa [List.length_append]
    · rw [hwriter', hwriter, Writer.push_push]
  complete := by
    rintro duplex _ _ c rest ⟨a, word₁, word₂, out₁, out₂, rfl, rfl, hscript, hscript'⟩ hsymbols
      htakes
    rw [List.append_assoc] at hsymbols
    rw [List.length_append] at htakes
    have htakes₁ : duplex.writer.Takes out₁.length := fun room kind hlimit ↦
      Nat.le_trans (Nat.le_add_right _ _) (htakes room kind hlimit)
    obtain ⟨middle, hx, hmiddle, hwriter⟩ := h.complete _ _ _ _ _ hscript hsymbols htakes₁
    rw [← Writer.takes_push htakes₁, ← hwriter] at htakes
    obtain ⟨duplex', hf, hrest, hwriter'⟩ :=
      (hnext a).complete _ _ _ _ _ hscript' hmiddle htakes
    refine ⟨duplex', bind_eq_ok.mpr ⟨a, middle, hx, hf⟩, hrest, ?_⟩
    rw [hwriter', hwriter, Writer.push_push]

theorem ite {c : Prop} [Decidable c] {y : Exchange β α} (hx : Follows x script)
    (hy : Follows y script') :
    Follows (if c then x else y) fun word out a ↦
      c ∧ script word out a ∨ ¬c ∧ script' word out a := by
  by_cases hc : c
  · rw [if_pos hc]
    exact hx.congr fun _ _ _ ↦ by simp [hc]
  · rw [if_neg hc]
    exact hy.congr fun _ _ _ ↦ by simp [hc]

end Follows

/-! ## Messages -/

/-- The value that a result gives. -/
def toValue : Option (Result α) → Option α
  | some (.ok a) => some a
  | _ => none

/-- The messages that a computation writes on its way to a value, or when there is none. They go
out as far as there is room, and there is room for all when there is a value. -/
def Tells (x : Exchange β α) (messages : Option α → List (List β) → Prop) : Prop :=
  ∀ duplex, ∃ told, messages (toValue (x duplex).1) told ∧
    (x duplex).2.writer = (duplex.writer.writeAll told.flatten).2 ∧
    ((toValue (x duplex).1).isSome → duplex.writer.Takes told.flatten.length)

namespace Tells

variable {x : Exchange β α} {messages messages' : Option α → List (List β) → Prop}

theorem mono (h : Tells x messages)
    (hmono : ∀ value told, messages value told → messages' value told) : Tells x messages' := by
  intro duplex
  obtain ⟨told, hmessages, hwriter⟩ := h duplex
  exact ⟨told, hmono _ _ hmessages, hwriter⟩

/-- A computation that leaves the writer as it is tells nothing. -/
theorem of_writer_eq (h : ∀ duplex, (x duplex).2.writer = duplex.writer) :
    Tells x fun _ told ↦ told = [] := by
  intro duplex
  refine ⟨[], rfl, ?_, fun _ _ _ _ ↦ Nat.zero_le _⟩
  rw [h duplex, List.flatten_nil, Writer.writeAll_of_takes fun _ _ _ ↦ Nat.zero_le _,
    Writer.push_nil]

theorem pure (a : α) : Tells (Pure.pure a : Exchange β α) fun _ told ↦ told = [] :=
  of_writer_eq fun _ ↦ rfl

theorem ofResult (result : Result α) :
    Tells (Exchange.ofResult result : Exchange β α) fun _ told ↦ told = [] :=
  of_writer_eq fun _ ↦ rfl

theorem error (e : AnyError) :
    Tells (Exchange.ofResult (.error e) : Exchange β α) fun value told ↦
      value = none ∧ told = [] := by
  intro duplex
  obtain ⟨_, rfl, hwriter⟩ := ofResult (.error e : Result α) duplex
  exact ⟨[], ⟨rfl, rfl⟩, hwriter⟩

theorem readExact (count : Nat) :
    Tells (Exchange.readExact count : Exchange β (List β)) fun _ told ↦ told = [] := by
  apply of_writer_eq
  intro duplex
  rw [Exchange.readExact]
  split <;> rfl

theorem writeAll (message : List β) :
    Tells (Exchange.writeAll message) fun _ told ↦ told = [message] := by
  intro duplex
  refine ⟨[message], rfl, ?_, ?_⟩
  · rw [Exchange.writeAll, List.flatten_singleton]
    split <;> next h => rw [h]
  · rw [Exchange.writeAll, List.flatten_singleton]
    by_cases htakes : duplex.writer.Takes message.length
    · exact fun _ ↦ htakes
    · obtain ⟨kind, writer, hwrite, -⟩ := Writer.writeAll_of_not_takes htakes
      rw [hwrite]
      exact nofun

/-- Behind a computation that gives a value, the messages of the next one follow. -/
theorem bind {f : α → Exchange β γ} {next : α → Option γ → List (List β) → Prop}
    (h : Tells x messages) (hnext : ∀ a, Tells (f a) (next a)) :
    Tells (x >>= f) fun value told ↦ value = none ∧ messages none told ∨
      ∃ a told₁ told₂, told = told₁ ++ told₂ ∧ messages (some a) told₁ ∧ next a value told₂ := by
  intro duplex
  obtain ⟨told₁, htold₁, hwriter₁, htakes₁⟩ := h duplex
  rcases hx : x duplex with ⟨_ | e | a, middle⟩
  · rw [hx] at htold₁ hwriter₁
    rw [bind_of_none hx]
    exact ⟨told₁, .inl ⟨rfl, htold₁⟩, hwriter₁, nofun⟩
  · rw [hx] at htold₁ hwriter₁
    rw [bind_of_error hx]
    exact ⟨told₁, .inl ⟨rfl, htold₁⟩, hwriter₁, nofun⟩
  · rw [hx] at htold₁ hwriter₁ htakes₁
    rw [bind_of_ok hx]
    have hroom : duplex.writer.Takes told₁.flatten.length := htakes₁ rfl
    rw [Writer.writeAll_of_takes hroom] at hwriter₁
    have hmiddle : middle.writer = duplex.writer.push told₁.flatten := hwriter₁
    obtain ⟨told₂, htold₂, hwriter₂, htakes₂⟩ := hnext a middle
    rw [hmiddle] at hwriter₂ htakes₂
    refine ⟨told₁ ++ told₂, .inr ⟨a, told₁, told₂, rfl, htold₁, htold₂⟩, ?_, fun hvalue ↦ ?_⟩
    · rw [List.flatten_append, ← Writer.writeAll_push hroom]
      exact hwriter₂
    · rw [List.flatten_append, List.length_append, ← Writer.takes_push hroom]
      exact htakes₂ hvalue

/-- In front of what is told, nothing need be. -/
theorem quiet_bind {f : α → Exchange β γ} {next : Option γ → List (List β) → Prop}
    (h : Tells x fun _ told ↦ told = []) (hnext : ∀ a, Tells (f a) next) (hnone : next none []) :
    Tells (x >>= f) next := by
  refine (h.bind hnext).mono ?_
  rintro value told (⟨rfl, rfl⟩ | ⟨a, _, told₂, rfl, rfl, htold⟩)
  · exact hnone
  · exact htold

theorem ite {c : Prop} [Decidable c] {y : Exchange β α} (hx : Tells x messages)
    (hy : Tells y messages) : Tells (if c then x else y) messages := by
  by_cases hc : c
  · rwa [if_pos hc]
  · rwa [if_neg hc]

end Tells

end Exchange

end KaduoxSsh
