import KaduoxSsh.Lib.Codec
import KaduoxSsh.Lib.Text

/-!
# The fields of a daemon frame

The writers append the bytes of one field to a payload; here each returns the
bytes that it appends. The readers move a `Cursor` over a payload. Every reader
is exact for its writer: it accepts what the writer produces and nothing else,
limits and flags included.
-/

namespace KaduoxSsh.Daemon

open Codec Result

def MAX_SECRET_BYTES : Nat := 64 * 1024

/-- What a request says about how to log in. -/
inductive AuthRequest where
  | auto
  | agent
  | password (secret : String)
  | keyboardInteractive (secret : String)
  | privateKey (path : PathBuf) (passphrase : Option String)
deriving DecidableEq, Repr

/-! ## Writers -/

/-- The checked conversion of a machine word to 32 bits. -/
def u32TryFrom (value : Nat) : Result UInt32 :=
  if value < 2 ^ 32 then .ok (UInt32.ofNat value)
  else bail "out of range integral type conversion attempted"

def putU16 (value : UInt16) : List UInt8 := bigEndian 2 value.toNat

def putU32 (value : UInt32) : List UInt8 := bigEndian 4 value.toNat

def putU64 (value : UInt64) : List UInt8 := bigEndian 8 value.toNat

def putBytes (bytes : List UInt8) (max : Nat) : Result (List UInt8) :=
  if bytes.length > max then bail s!"daemon IPC field exceeds {max} bytes"
  else do
    let length ← (u32TryFrom bytes.length).context "daemon IPC field exceeds u32"
    return putU32 length ++ bytes

def putString (value : String) (max : Nat) : Result (List UInt8) := putBytes (Text.utf8 value) max

def putOptionalString (value : Option String) (max : Nat) : Result (List UInt8) :=
  match value with
  | none => .ok [0]
  | some value => do
      return 1 :: (← putString value max)

/-- A word of the machine, which has 64 bits, written in 32. -/
def putUsizeU32 (value : UInt64) (label : String) : Result (List UInt8) := do
  let value ← (u32TryFrom value.toNat).context s!"daemon {label} exceeds u32"
  return putU32 value

def putBool (value : Bool) : List UInt8 := [if value then 1 else 0]

def putAuth (auth : Option AuthRequest) : Result (List UInt8) :=
  match auth with
  | none => .ok [0]
  | some .auto => .ok [1]
  | some .agent => .ok [2]
  | some (.password secret) => do
      return 3 :: (← putString secret MAX_SECRET_BYTES)
  | some (.keyboardInteractive secret) => do
      return 4 :: (← putString secret MAX_SECRET_BYTES)
  | some (.privateKey path passphrase) => do
      let path ← ofOption "daemon private-key path is not valid UTF-8" path.toStr
      return 5 :: ((← putString path 4096) ++ (← putOptionalString passphrase MAX_SECRET_BYTES))

/-! ## Readers -/

/-- A place in a payload. -/
structure Cursor where
  bytes : List UInt8
  offset : Nat
deriving DecidableEq, Repr

/-- A reader moves the cursor and may refuse the payload. -/
abbrev Decoder := StateT Cursor Result

def Decoder.bail {α : Type} (text : String) : Decoder α := StateT.lift (Result.bail text)

namespace Cursor

def new (bytes : List UInt8) : Cursor := ⟨bytes, 0⟩

def u8 : Decoder UInt8 := fun cursor ↦ do
  let value ←
    ofOption "daemon IPC frame ended unexpectedly" cursor.bytes[cursor.offset]?
  return (value, { cursor with offset := cursor.offset + 1 })

/-- The end of the slice cannot overflow a machine word: the offset is at most the length of a
slice, and a length that a frame can name has 32 bits. -/
def take (length : Nat) : Decoder (List UInt8) := fun cursor ↦
  let stop := cursor.offset + length
  if stop ≤ cursor.bytes.length then
    .ok ((cursor.bytes.drop cursor.offset).take length, { cursor with offset := stop })
  else bail "daemon IPC frame ended unexpectedly"

def bool : Decoder Bool := do
  match ← u8 with
  | 0 => return false
  | 1 => return true
  | value => Decoder.bail s!"invalid daemon boolean value {value}"

def u16 : Decoder UInt16 := do
  return UInt16.ofNat (ofBigEndian (← take 2))

def u32 : Decoder UInt32 := do
  return UInt32.ofNat (ofBigEndian (← take 4))

def u64 : Decoder UInt64 := do
  return UInt64.ofNat (ofBigEndian (← take 8))

/-- A length-prefixed field; the source calls this reader `bytes`. -/
def byteString (max : Nat) : Decoder (List UInt8) := do
  let length := (← u32).toNat
  if length > max then Decoder.bail s!"daemon IPC field length {length} exceeds {max}"
  else take length

def string (max : Nat) : Decoder String := do
  let bytes ← byteString max
  StateT.lift (ofOption "daemon IPC string is not valid UTF-8" (Text.fromUtf8 bytes))

def optionalString (max : Nat) : Decoder (Option String) := do
  match ← u8 with
  | 0 => return none
  | 1 => return some (← string max)
  | value => Decoder.bail s!"invalid daemon optional-string flag {value}"

def auth : Decoder (Option AuthRequest) := do
  match ← u8 with
  | 0 => return none
  | 1 => return some .auto
  | 2 => return some .agent
  | 3 => return some (.password (← string MAX_SECRET_BYTES))
  | 4 => return some (.keyboardInteractive (← string MAX_SECRET_BYTES))
  | 5 => do
      let path := PathBuf.ofString (← string 4096)
      return some (.privateKey path (← optionalString MAX_SECRET_BYTES))
  | value => Decoder.bail s!"unknown daemon authentication kind {value}"

def finish : Decoder Unit := fun cursor ↦
  if cursor.offset ≠ cursor.bytes.length then
    bail "daemon IPC frame contains trailing bytes"
  else .ok ((), cursor)

/-- The cursor between what has been read and what has not. -/
def between (pre rest : List UInt8) : Cursor := ⟨pre ++ rest, pre.length⟩

/-! ## Exactness -/

theorem u8_exact : Exact between (fun b ↦ .ok [b]) u8 := by
  intro pre input b s
  rw [StateT.run, u8, bind_eq_ok]
  cases input with
  | nil => simp [between]
  | cons c rest =>
      simp only [between, ofOption_eq_ok, List.getElem?_append_right (Nat.le_refl _),
        Nat.sub_self, List.getElem?_cons_zero]
      constructor
      · rintro ⟨_, ⟨⟩, ⟨⟩⟩
        exact ⟨[b], rest, rfl, rfl, by simp⟩
      · rintro ⟨_, _, ⟨⟩, ⟨⟩, rfl⟩
        exact ⟨b, rfl, by simp⟩

/-- Taking as many bytes as a word has is to split that word off. -/
theorem take_exact (length : Nat) :
    Exact between (fun word ↦ if word.length = length then .ok word else bail "")
      (take length) := by
  intro pre input word s
  have hfits : pre.length + length ≤ (pre ++ input).length ↔ length ≤ input.length := by
    rw [List.length_append, Nat.add_le_add_iff_left]
  simp only [StateT.run, take, between, hfits, List.drop_left]
  constructor
  · intro h
    split at h
    · rename_i hle
      cases h
      refine ⟨input.take length, input.drop length, ?_, (List.take_append_drop _ _).symm, ?_⟩
      · rw [if_pos (List.length_take_of_le hle)]
      · simp [Nat.min_eq_left hle]
    · cases h
  · rintro ⟨word', rest, hword, rfl, rfl⟩
    split at hword
    · rename_i hlen
      cases hword
      subst hlen
      simp
    · cases hword

/-- A number of fixed width, read and written through its bytes. -/
theorem word_exact {α : Type} (width : Nat) (ofNat : Nat → α) (toNat : α → Nat)
    (hlt : ∀ a, toNat a < 256 ^ width) (hof : ∀ a, ofNat (toNat a) = a)
    (hto : ∀ n < 256 ^ width, toNat (ofNat n) = n) :
    Exact between (fun a ↦ .ok (bigEndian width (toNat a)))
      (do return ofNat (ofBigEndian (← take width))) := by
  intro pre input a s
  rw [(take_exact width).bind]
  constructor
  · rintro ⟨word, _, rest, hword, rfl, h⟩
    split at hword
    · rename_i hlen
      cases hword
      cases h
      have hrange : ofBigEndian word < 256 ^ width := hlen ▸ ofBigEndian_lt word
      refine ⟨word, rest, ?_, rfl, rfl⟩
      show Except.ok (bigEndian width (toNat (ofNat (ofBigEndian word)))) = _
      rw [hto _ hrange, ← hlen, bigEndian_ofBigEndian]
    · cases hword
  · rintro ⟨_, rest, ⟨⟩, rfl, rfl⟩
    refine ⟨bigEndian width (toNat a), _, rest, if_pos (length_bigEndian _ _), rfl, ?_⟩
    rw [ofBigEndian_bigEndian (hlt a), hof]
    rfl

theorem u16_exact : Exact between (fun v ↦ .ok (putU16 v)) u16 :=
  word_exact 2 UInt16.ofNat UInt16.toNat (fun v ↦ v.toNat_lt) (fun _ ↦ UInt16.ofNat_toNat)
    fun _ h ↦ UInt16.toNat_ofNat_of_lt h

theorem u32_exact : Exact between (fun v ↦ .ok (putU32 v)) u32 :=
  word_exact 4 UInt32.ofNat UInt32.toNat (fun v ↦ v.toNat_lt) (fun _ ↦ UInt32.ofNat_toNat)
    fun _ h ↦ UInt32.toNat_ofNat_of_lt h

theorem u64_exact : Exact between (fun v ↦ .ok (putU64 v)) u64 :=
  word_exact 8 UInt64.ofNat UInt64.toNat (fun v ↦ v.toNat_lt) (fun _ ↦ UInt64.ofNat_toNat)
    fun _ h ↦ UInt64.toNat_ofNat_of_lt h

end Cursor

theorem u32TryFrom_eq_ok {n : Nat} {v : UInt32} : u32TryFrom n = .ok v ↔ v.toNat = n := by
  rw [u32TryFrom]
  split
  · rename_i h
    constructor
    · rintro ⟨⟩
      exact UInt32.toNat_ofNat_of_lt h
    · rintro rfl
      rw [UInt32.ofNat_toNat]
  · rename_i h
    constructor
    · rintro ⟨⟩
    · rintro rfl
      exact absurd v.toNat_lt h

/-- A field within its limit is its length in four bytes and then itself. -/
theorem putBytes_eq_ok {bytes word : List UInt8} {max : Nat} :
    putBytes bytes max = .ok word ↔
      bytes.length ≤ max ∧ ∃ length : UInt32, length.toNat = bytes.length ∧
        word = putU32 length ++ bytes := by
  rw [putBytes, ite_bail_eq_ok, Nat.not_lt, bind_eq_ok]
  simp only [context_eq_ok, u32TryFrom_eq_ok, pure_eq_ok, Except.ok.injEq,
    eq_comm (b := word)]

namespace Cursor

theorem byteString_exact (max : Nat) : Exact between (putBytes · max) (byteString max) := by
  intro pre input bytes s
  rw [byteString, u32_exact.bind]
  simp only [putBytes_eq_ok]
  constructor
  · rintro ⟨length, _, rest, ⟨⟩, rfl, h⟩
    split at h
    · cases h
    · rename_i hmax
      obtain ⟨word, rest, hword, rfl, rfl⟩ := (take_exact _).word h
      split at hword
      · rename_i hlen
        cases hword
        exact ⟨_, rest, ⟨hlen ▸ Nat.le_of_not_lt hmax, length, hlen.symm, rfl⟩,
          (List.append_assoc ..).symm, by rw [List.append_assoc]⟩
      · cases hword
  · rintro ⟨_, rest, ⟨hmax, length, hlen, rfl⟩, rfl, rfl⟩
    refine ⟨length, _, bytes ++ rest, rfl, List.append_assoc .., ?_⟩
    rw [if_neg (by rw [hlen]; exact Nat.not_lt.mpr hmax), hlen, ← List.append_assoc]
    exact (take_exact _).run (if_pos rfl) _ rest

theorem string_exact (max : Nat) : Exact between (putString · max) (string max) := by
  refine (byteString_exact max).mapM (g := fun s ↦ .ok (Text.utf8 s)) ?_
  intro bytes s
  rw [ofOption_eq_ok, Text.fromUtf8_eq_some_iff, Except.ok.injEq]

theorem bool_exact : Exact between (fun b ↦ .ok (putBool b)) bool := by
  intro pre input b s
  rw [bool, u8_exact.bind]
  constructor
  · rintro ⟨flag, _, rest, ⟨⟩, rfl, h⟩
    split at h
    · cases h
      exact ⟨[0], rest, rfl, rfl, rfl⟩
    · cases h
      exact ⟨[1], rest, rfl, rfl, rfl⟩
    · cases h
  · rintro ⟨_, rest, ⟨⟩, rfl, rfl⟩
    cases b with
    | false => exact ⟨0, _, rest, rfl, rfl, rfl⟩
    | true => exact ⟨1, _, rest, rfl, rfl, rfl⟩

theorem optionalString_exact (max : Nat) :
    Exact between (putOptionalString · max) (optionalString max) := by
  intro pre input value s
  rw [optionalString, u8_exact.bind]
  constructor
  · rintro ⟨flag, _, rest, ⟨⟩, rfl, h⟩
    split at h
    · cases h
      exact ⟨[0], rest, rfl, rfl, rfl⟩
    · obtain ⟨text, word, rest, hput, rfl, hret⟩ := (string_exact max).bind.mp h
      cases hret
      exact ⟨1 :: word, rest, bind_eq_ok.mpr ⟨word, hput, rfl⟩, rfl, by simp⟩
    · cases h
  · rintro ⟨_, rest, hput, rfl, rfl⟩
    cases value with
    | none =>
        cases hput
        exact ⟨0, _, rest, rfl, rfl, rfl⟩
    | some text =>
        obtain ⟨word, hword, hret⟩ := bind_eq_ok.mp hput
        cases hret
        refine ⟨1, _, word ++ rest, rfl, rfl, ?_⟩
        exact (string_exact max).bind.mpr ⟨text, word, rest, hword, rfl, by simp⟩

theorem auth_exact : Exact between putAuth auth := by
  intro pre input value s
  rw [auth, u8_exact.bind]
  constructor
  · rintro ⟨kind, _, rest, ⟨⟩, rfl, h⟩
    split at h
    · cases h
      exact ⟨[0], rest, rfl, rfl, rfl⟩
    · cases h
      exact ⟨[1], rest, rfl, rfl, rfl⟩
    · cases h
      exact ⟨[2], rest, rfl, rfl, rfl⟩
    · obtain ⟨secret, word, rest, hput, rfl, hret⟩ := (string_exact _).bind.mp h
      cases hret
      exact ⟨3 :: word, rest, bind_eq_ok.mpr ⟨word, hput, rfl⟩, rfl, by simp⟩
    · obtain ⟨secret, word, rest, hput, rfl, hret⟩ := (string_exact _).bind.mp h
      cases hret
      exact ⟨4 :: word, rest, bind_eq_ok.mpr ⟨word, hput, rfl⟩, rfl, by simp⟩
    · obtain ⟨path, word, rest, hpath, rfl, hgo⟩ := (string_exact _).bind.mp h
      obtain ⟨passphrase, word', rest, hpass, rfl, hret⟩ := (optionalString_exact _).bind.mp hgo
      cases hret
      refine ⟨5 :: (word ++ word'), rest, ?_, by simp, by simp⟩
      rw [putAuth, PathBuf.toStr_eq_some_iff.mpr rfl, ofOption, bind_ok, hpath, hpass]
      rfl
    · cases h
  · rintro ⟨_, rest, hput, rfl, rfl⟩
    rcases value with _ | _ | _ | secret | secret | ⟨path, passphrase⟩
    · cases hput
      exact ⟨0, _, rest, rfl, rfl, rfl⟩
    · cases hput
      exact ⟨1, _, rest, rfl, rfl, rfl⟩
    · cases hput
      exact ⟨2, _, rest, rfl, rfl, rfl⟩
    · obtain ⟨word, hword, hret⟩ := bind_eq_ok.mp hput
      cases hret
      refine ⟨3, _, word ++ rest, rfl, rfl, ?_⟩
      exact (string_exact _).bind.mpr ⟨secret, word, rest, hword, rfl, by simp⟩
    · obtain ⟨word, hword, hret⟩ := bind_eq_ok.mp hput
      cases hret
      refine ⟨4, _, word ++ rest, rfl, rfl, ?_⟩
      exact (string_exact _).bind.mpr ⟨secret, word, rest, hword, rfl, by simp⟩
    · obtain ⟨name, hname, hput⟩ := bind_eq_ok.mp hput
      obtain ⟨word, hpath, hput⟩ := bind_eq_ok.mp hput
      obtain ⟨word', hpass, hret⟩ := bind_eq_ok.mp hput
      cases hret
      obtain rfl := PathBuf.toStr_eq_some_iff.mp (ofOption_eq_ok.mp hname)
      refine ⟨5, _, word ++ (word' ++ rest), rfl, by simp, ?_⟩
      apply (string_exact _).bind.mpr
      refine ⟨name, word, _, hpath, rfl, ?_⟩
      exact (optionalString_exact _).bind.mpr ⟨passphrase, word', rest, hpass, rfl, by simp⟩

end Cursor

/-- Also a counter that fits 32 bits is read as a word of the machine. -/
def usizeFromU32 (value : UInt32) : UInt64 := value.toUInt64

/-- A word of the machine has 64 bits, so every counter fits. -/
def usizeFromU64 (value : UInt64) : Result UInt64 := .ok value

namespace Cursor

theorem usizeU32_exact (label : String) :
    Exact between (putUsizeU32 · label) (do return usizeFromU32 (← u32)) := by
  refine u32_exact.mapM (f := fun v ↦ .ok (usizeFromU32 v))
    (g := fun v ↦ (u32TryFrom v.toNat).context s!"daemon {label} exceeds u32") ?_
  intro v w
  rw [context_eq_ok, u32TryFrom_eq_ok, Except.ok.injEq, usizeFromU32, ← UInt64.toNat_inj,
    UInt32.toNat_toUInt64]

/-- Read a value that takes up the whole payload. -/
def whole {α : Type} (get : Decoder α) (payload : List UInt8) : Result α := do
  let (a, cursor) ← get.run (new payload)
  let _ ← finish.run cursor
  return a

/-- A payload that is read to its end is the encoding of the value read. -/
theorem whole_iff {α : Type} {put : α → Result (List UInt8)} {get : Decoder α}
    (h : Exact between put get) {payload : List UInt8} {a : α} :
    whole get payload = .ok a ↔ put a = .ok payload := by
  have hfinish (pre rest : List UInt8) :
      (∃ p, finish.run (between pre rest) = .ok p) ↔ rest = [] := by
    rw [StateT.run, finish, between, List.length_append]
    cases rest with
    | nil => simp
    | cons b rest => simp
  rw [whole, bind_eq_ok]
  constructor
  · rintro ⟨⟨a', cursor⟩, hget, hrest⟩
    obtain ⟨p, hend, hret⟩ := bind_eq_ok.mp hrest
    cases hret
    obtain ⟨word, rest, hput, rfl, rfl⟩ := (h [] payload a cursor).mp hget
    obtain rfl := (hfinish _ _).mp ⟨p, hend⟩
    rw [List.append_nil]
    exact hput
  · intro hput
    have hget := h.run hput [] []
    obtain ⟨p, hend⟩ := (hfinish payload []).mpr rfl
    rw [List.append_nil] at hget
    exact ⟨_, hget, bind_eq_ok.mpr ⟨p, hend, rfl⟩⟩

end Cursor

end KaduoxSsh.Daemon
