import KaduoxSsh.Lib.Result

/-!
# Streams that come in pieces and may break

A reader is what has arrived of a stream, in the pieces in which it arrived, and
what comes after them: nothing yet, the end, or a failure. `readExact` collects
a number of symbols over as many pieces as it takes. What it returns does not
depend on how the stream was cut (`readExact_of_le`, `readExact_of_lt`).

A writer takes symbols until, perhaps, it fails; what it took before that has
gone out.
-/

namespace KaduoxSsh

open List

variable {β : Type}

/-! ## Reading -/

/-- What comes after the pieces that have arrived. -/
inductive Tail where
  /-- Nothing yet: a read that needs more waits. -/
  | pending
  | eof
  | failed (kind : IoErrorKind)
deriving DecidableEq, Repr

/-- The result of a read when no piece is left. -/
def Tail.outcome {α : Type} : Tail → Option (Except IoErrorKind α)
  | .pending => none
  | .eof => some (.error .unexpectedEof)
  | .failed kind => some (.error kind)

/-- The pieces of a stream. None is empty: a read that gives no symbol is the end of it. -/
abbrev Pieces (β : Type) := List { chunk : List β // chunk ≠ [] }

structure Reader (β : Type) where
  chunks : Pieces β
  tail : Tail

namespace Reader

/-- The symbols that have arrived. -/
def symbols (reader : Reader β) : List β := (reader.chunks.map Subtype.val).flatten

/-- A reader to which these symbols came as one piece. -/
def ofSymbols (symbols : List β) (tail : Tail) : Reader β :=
  if h : symbols = [] then ⟨[], tail⟩ else ⟨[⟨symbols, h⟩], tail⟩

@[simp] theorem symbols_mk_cons (chunk : { chunk : List β // chunk ≠ [] }) (chunks : Pieces β)
    (tail : Tail) : symbols ⟨chunk :: chunks, tail⟩ = chunk.val ++ symbols ⟨chunks, tail⟩ := rfl

@[simp] theorem symbols_mk_nil (tail : Tail) : symbols (⟨[], tail⟩ : Reader β) = [] := rfl

@[simp] theorem symbols_ofSymbols (l : List β) (tail : Tail) : (ofSymbols l tail).symbols = l := by
  rw [ofSymbols]
  split
  · rename_i h
    exact h.symm
  · simp

@[simp] theorem tail_ofSymbols (l : List β) (tail : Tail) : (ofSymbols l tail).tail = tail := by
  rw [ofSymbols]
  split <;> rfl

/-- Collect `count` more symbols after those already held, one read a piece. -/
def collect (tail : Tail) :
    Pieces β → Nat → List β → Option (Except IoErrorKind (List β × Reader β))
  | chunks, 0, held => some (.ok (held, ⟨chunks, tail⟩))
  | [], _ + 1, _ => tail.outcome
  | chunk :: chunks, count + 1, held =>
      if h : count + 1 < chunk.val.length then
        -- The buffer is full before the piece is used up.
        some (.ok (held ++ chunk.val.take (count + 1),
          ⟨⟨chunk.val.drop (count + 1), by simpa using h⟩ :: chunks, tail⟩))
      else collect tail chunks (count + 1 - chunk.val.length) (held ++ chunk.val)

/-- Read exactly `count` symbols. There is no result while more symbols are awaited. -/
def readExact (reader : Reader β) (count : Nat) :
    Option (Except IoErrorKind (List β × Reader β)) :=
  collect reader.tail reader.chunks count []

variable {count : Nat}

theorem collect_of_le {tail : Tail} {chunks : Pieces β} (held : List β)
    (h : count ≤ (symbols ⟨chunks, tail⟩).length) :
    ∃ reader, collect tail chunks count held =
        some (.ok (held ++ (symbols ⟨chunks, tail⟩).take count, reader)) ∧
      reader.symbols = (symbols ⟨chunks, tail⟩).drop count ∧ reader.tail = tail := by
  induction chunks generalizing count held with
  | nil =>
      obtain rfl : count = 0 := Nat.le_zero.mp h
      exact ⟨⟨[], tail⟩, by simp [collect], rfl, rfl⟩
  | cons chunk chunks ih =>
      cases count with
      | zero => exact ⟨⟨chunk :: chunks, tail⟩, by simp [collect], rfl, rfl⟩
      | succ count =>
          rw [symbols_mk_cons, length_append] at h
          rw [collect, symbols_mk_cons]
          by_cases hlt : count + 1 < chunk.val.length
          · refine ⟨⟨⟨chunk.val.drop (count + 1), by simpa using hlt⟩ :: chunks, tail⟩, ?_, ?_, rfl⟩
            · rw [dif_pos hlt, take_append_of_le_length (Nat.le_of_lt hlt)]
            · rw [symbols_mk_cons, drop_append_of_le_length (Nat.le_of_lt hlt)]
          · have hle : chunk.val.length ≤ count + 1 := Nat.le_of_not_lt hlt
            obtain ⟨reader, hcollect, hsymbols, htail⟩ :=
              ih (held ++ chunk.val) (show count + 1 - chunk.val.length ≤ _ by omega)
            refine ⟨reader, ?_, ?_, htail⟩
            · rw [dif_neg hlt, hcollect, take_append, take_of_length_le hle,
                append_assoc]
            · rw [hsymbols, drop_append, drop_of_length_le hle, nil_append]

theorem collect_of_lt {tail : Tail} {chunks : Pieces β} (held : List β)
    (h : (symbols ⟨chunks, tail⟩).length < count) :
    collect tail chunks count held = tail.outcome := by
  induction chunks generalizing count held with
  | nil =>
      cases count with
      | zero => exact absurd h (Nat.not_lt_zero _)
      | succ count => rw [collect]
  | cons chunk chunks ih =>
      cases count with
      | zero => exact absurd h (Nat.not_lt_zero _)
      | succ count =>
          rw [symbols_mk_cons, length_append] at h
          rw [collect, dif_neg (by omega)]
          exact ih (held ++ chunk.val) (by omega)

/-- Symbols that have arrived are read, and those behind them are kept. -/
theorem readExact_of_le {reader : Reader β} (h : count ≤ reader.symbols.length) :
    ∃ reader', reader.readExact count = some (.ok (reader.symbols.take count, reader')) ∧
      reader'.symbols = reader.symbols.drop count ∧ reader'.tail = reader.tail :=
  collect_of_le [] h

/-- A read of more than has arrived ends as the stream does. -/
theorem readExact_of_lt {reader : Reader β} (h : reader.symbols.length < count) :
    reader.readExact count = reader.tail.outcome :=
  collect_of_lt [] h

/-- What a read returns stood in front of what it leaves. -/
theorem readExact_eq_ok {reader reader' : Reader β} {word : List β}
    (h : reader.readExact count = some (.ok (word, reader'))) :
    word.length = count ∧ reader.symbols = word ++ reader'.symbols ∧
      reader'.tail = reader.tail := by
  rcases Nat.lt_or_ge reader.symbols.length count with hlt | hle
  · rw [readExact_of_lt hlt] at h
    cases htail : reader.tail <;> simp [htail, Tail.outcome] at h
  · obtain ⟨reader'', hread, hsymbols, htail⟩ := readExact_of_le hle
    obtain ⟨rfl, rfl⟩ : reader.symbols.take count = word ∧ reader'' = reader' := by
      simpa [hread] using h
    exact ⟨length_take_of_le hle, by rw [hsymbols, take_append_drop], htail⟩

/-- A word in front of the stream is read back, however the stream was cut. -/
theorem readExact_append {reader : Reader β} {word rest : List β}
    (h : reader.symbols = word ++ rest) :
    ∃ reader', reader.readExact word.length = some (.ok (word, reader')) ∧
      reader'.symbols = rest ∧ reader'.tail = reader.tail := by
  obtain ⟨reader', hread, hsymbols, htail⟩ :=
    readExact_of_le (show word.length ≤ reader.symbols.length by simp [h])
  rw [h, take_left] at hread
  rw [h, drop_left] at hsymbols
  exact ⟨reader', hread, hsymbols, htail⟩

end Reader

/-! ## Writing -/

structure Writer (β : Type) where
  /-- What has gone out. -/
  written : List β
  /-- How many more symbols are taken, and the failure after them. -/
  limit : Option (Nat × IoErrorKind)
  /-- The failure of a flush. -/
  flushFault : Option IoErrorKind
deriving DecidableEq, Repr

namespace Writer

def writeAll (writer : Writer β) (word : List β) : Except IoErrorKind Unit × Writer β :=
  match writer.limit with
  | none => (.ok (), { writer with written := writer.written ++ word })
  | some (room, kind) =>
      if word.length ≤ room then
        (.ok (), { writer with
          written := writer.written ++ word
          limit := some (room - word.length, kind) })
      else
        (.error kind, { writer with
          written := writer.written ++ word.take room
          limit := some (0, kind) })

def flush (writer : Writer β) : Except IoErrorKind Unit × Writer β :=
  match writer.flushFault with
  | none => (.ok (), writer)
  | some kind => (.error kind, writer)

/-- Whether so many more symbols are taken. -/
def Takes (writer : Writer β) (count : Nat) : Prop :=
  ∀ room kind, writer.limit = some (room, kind) → count ≤ room

/-- The writer after it took a word. -/
def push (writer : Writer β) (word : List β) : Writer β :=
  ⟨writer.written ++ word, writer.limit.map fun (room, kind) ↦ (room - word.length, kind),
    writer.flushFault⟩

@[simp] theorem push_nil (writer : Writer β) : writer.push [] = writer := by
  rcases writer with ⟨written, _ | limit, flushFault⟩ <;> simp [push]

variable {writer : Writer β} {word : List β}

/-- A word for which there is room goes out. -/
theorem writeAll_of_takes (h : writer.Takes word.length) :
    writer.writeAll word = (.ok (), writer.push word) := by
  rw [writeAll, push]
  cases hlimit : writer.limit with
  | none => rfl
  | some limit =>
      obtain ⟨room, kind⟩ := limit
      simp only [if_pos (h room kind hlimit), Option.map_some]

/-- Of a word for which there is no room, a part goes out. -/
theorem writeAll_of_not_takes (h : ¬writer.Takes word.length) :
    ∃ kind writer', writer.writeAll word = (.error kind, writer') ∧
      writer.written <+: writer'.written ∧
      writer'.written.length < writer.written.length + word.length := by
  cases hlimit : writer.limit with
  | none =>
      refine absurd (fun room kind hsome ↦ ?_) h
      rw [hlimit] at hsome
      cases hsome
  | some limit =>
      obtain ⟨room, kind⟩ := limit
      have hroom : ¬word.length ≤ room := by
        intro hle
        refine h fun room' kind' hsome ↦ ?_
        cases hlimit.symm.trans hsome
        exact hle
      refine ⟨kind, _, by rw [writeAll, hlimit]; exact if_neg hroom, prefix_append _ _, ?_⟩
      simp only [length_append, length_take]
      omega

theorem takes_push (h : writer.Takes word.length) (count : Nat) :
    (writer.push word).Takes count ↔ writer.Takes (word.length + count) := by
  rw [Takes, Takes, push]
  cases hlimit : writer.limit with
  | none => simp
  | some limit =>
      obtain ⟨room, kind⟩ := limit
      have hroom := h room kind hlimit
      constructor
      · rintro hcount room' kind' ⟨⟩
        have := hcount _ _ rfl
        omega
      · rintro hcount room' kind' ⟨⟩
        have := hcount _ _ rfl
        omega

theorem push_push (writer : Writer β) (word word' : List β) :
    (writer.push word).push word' = writer.push (word ++ word') := by
  simp only [push, append_assoc, Option.map_map, length_append]
  congr 2
  funext ⟨room, kind⟩
  simp only [Function.comp_apply, Nat.sub_sub]

/-- What is written in two parts goes out as far as the whole does. -/
theorem writeAll_push (h : writer.Takes word.length) (word' : List β) :
    ((writer.push word).writeAll word').2 = (writer.writeAll (word ++ word')).2 := by
  by_cases htakes : (writer.push word).Takes word'.length
  · have hwhole : writer.Takes (word ++ word').length := by
      rwa [length_append, ← takes_push h]
    rw [writeAll_of_takes htakes, writeAll_of_takes hwhole, push_push]
  · rw [takes_push h] at htakes
    cases hlimit : writer.limit with
    | none =>
        refine absurd (fun room kind hsome ↦ ?_) htakes
        rw [hlimit] at hsome
        cases hsome
    | some limit =>
        obtain ⟨room, kind⟩ := limit
        have hroom := h room kind hlimit
        have hfull : ¬word.length + word'.length ≤ room := by
          intro hle
          refine htakes fun room' kind' hsome ↦ ?_
          cases hlimit.symm.trans hsome
          exact hle
        have hrest : ¬word'.length ≤ room - word.length := by omega
        rw [writeAll, writeAll, push, hlimit]
        simp only [Option.map_some, length_append, if_neg hfull, if_neg hrest,
          take_append, take_of_length_le hroom, append_assoc]

/-- A write that succeeds has gone out whole. -/
theorem written_of_writeAll_ok (h : (writer.writeAll word).1 = .ok ()) :
    (writer.writeAll word).2.written = writer.written ++ word := by
  by_cases htakes : writer.Takes word.length
  · rw [writeAll_of_takes htakes]
    rfl
  · obtain ⟨kind, writer', hwrite, -⟩ := writeAll_of_not_takes htakes
    rw [hwrite] at h
    cases h

end Writer

end KaduoxSsh
