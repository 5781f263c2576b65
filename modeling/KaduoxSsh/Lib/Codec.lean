import KaduoxSsh.Lib.Result
import Mathlib.Tactic.Ring

/-!
# Exact encoders and decoders

A decoder is *exact* for an encoder when it accepts precisely the words the
encoder produces: on an input it returns a value together with the rest of the
input if and only if the input is the encoding of that value followed by that
rest. This one equivalence gives both the round trip and the fact that no value
has a second accepted spelling, and it composes along `>>=` (`Exact.bind`).

The decoder runs in a state of its own. All that is known of that state is
`pos`, which builds it from the symbols already read and those still to come.

The last section is about numbers in big-endian base 256.
-/

namespace KaduoxSsh.Codec

variable {σ β α γ : Type} {pos : List β → List β → σ}

/-- The decoder `get` accepts exactly the words that the encoder `put` produces. -/
def Exact (pos : List β → List β → σ) (put : α → Result (List β)) (get : StateT σ Result α) :
    Prop :=
  ∀ pre input a s, get.run (pos pre input) = .ok (a, s) ↔
    ∃ word rest, put a = .ok word ∧ input = word ++ rest ∧ s = pos (pre ++ word) rest

section Exact

variable {put : α → Result (List β)} {get : StateT σ Result α}

/-- The encoding of a value is read back, whatever surrounds it. -/
theorem Exact.run (h : Exact pos put get) {a : α} {word : List β} (hput : put a = .ok word)
    (pre rest : List β) :
    get.run (pos pre (word ++ rest)) = .ok (a, pos (pre ++ word) rest) :=
  (h pre (word ++ rest) a _).mpr ⟨word, rest, hput, rfl, rfl⟩

/-- Only the encoding of the value it returns is read by an exact decoder. -/
theorem Exact.word (h : Exact pos put get) {pre input : List β} {a : α} {s : σ}
    (hget : get.run (pos pre input) = .ok (a, s)) :
    ∃ word rest, put a = .ok word ∧ input = word ++ rest ∧ s = pos (pre ++ word) rest :=
  (h pre input a s).mp hget

/-- Reading a value and going on is to split its encoding off the input and to go on from there. -/
theorem Exact.bind (h : Exact pos put get) {f : α → StateT σ Result γ} {pre input : List β} {c : γ}
    {s : σ} :
    (get >>= f).run (pos pre input) = .ok (c, s) ↔
      ∃ a word rest, put a = .ok word ∧ input = word ++ rest ∧
        (f a).run (pos (pre ++ word) rest) = .ok (c, s) := by
  rw [StateT.run_bind, Result.bind_eq_ok]
  constructor
  · rintro ⟨⟨a, s'⟩, hget, hf⟩
    obtain ⟨word, rest, hput, rfl, rfl⟩ := h.word hget
    exact ⟨a, word, rest, hput, rfl, hf⟩
  · rintro ⟨a, word, rest, hput, rfl, hf⟩
    exact ⟨_, h.run hput pre rest, hf⟩

/-- The value of an exact decoder may be replaced along a map that undoes a partial one. -/
theorem Exact.mapM (h : Exact pos put get) {f : α → Result γ} {g : γ → Result α}
    (hfg : ∀ a c, f a = .ok c ↔ g c = .ok a) :
    Exact pos (fun c ↦ g c >>= put) (get >>= fun a ↦ StateT.lift (f a)) := by
  intro pre input c s
  rw [h.bind]
  constructor
  · rintro ⟨a, word, rest, hput, rfl, hf⟩
    obtain ⟨c', hc', hs⟩ := Result.bind_eq_ok.mp hf
    cases hs
    exact ⟨word, rest, Result.bind_eq_ok.mpr ⟨a, (hfg a c).mp hc', hput⟩, rfl, rfl⟩
  · rintro ⟨word, rest, hput, rfl, rfl⟩
    obtain ⟨a, ha, hput⟩ := Result.bind_eq_ok.mp hput
    exact ⟨a, word, rest, hput, rfl, Result.bind_eq_ok.mpr ⟨c, (hfg a c).mpr ha, rfl⟩⟩

end Exact

/-! ## Big-endian numbers -/

/-- The `width` lowest bytes of a number, the highest first. -/
def bigEndian : Nat → Nat → List UInt8
  | 0, _ => []
  | width + 1, n => UInt8.ofNat (n / 256 ^ width) :: bigEndian width n

/-- The number that some bytes write, the highest first. -/
def ofBigEndian : List UInt8 → Nat
  | [] => 0
  | b :: rest => b.toNat * 256 ^ rest.length + ofBigEndian rest

@[simp] theorem length_bigEndian (width n : Nat) : (bigEndian width n).length = width := by
  induction width with
  | zero => rfl
  | succ width ih => rw [bigEndian, List.length_cons, ih]

theorem ofBigEndian_lt (bytes : List UInt8) : ofBigEndian bytes < 256 ^ bytes.length := by
  induction bytes with
  | nil => exact Nat.one_pos
  | cons b rest ih =>
      have hb : b.toNat ≤ 255 := Nat.le_of_lt_succ b.toNat_lt
      calc ofBigEndian (b :: rest) = b.toNat * 256 ^ rest.length + ofBigEndian rest := rfl
        _ < b.toNat * 256 ^ rest.length + 256 ^ rest.length := Nat.add_lt_add_left ih _
        _ ≤ 255 * 256 ^ rest.length + 256 ^ rest.length :=
            Nat.add_le_add_right (Nat.mul_le_mul_right _ hb) _
        _ = 256 ^ (b :: rest).length := by rw [List.length_cons, pow_succ]; ring

/-- A number in range is read back from its bytes. -/
theorem ofBigEndian_bigEndian {width n : Nat} (h : n < 256 ^ width) :
    ofBigEndian (bigEndian width n) = n := by
  -- The induction peels the highest byte, so it is about the number modulo the range.
  suffices hmod : ∀ width, ofBigEndian (bigEndian width n) = n % 256 ^ width by
    rw [hmod, Nat.mod_eq_of_lt h]
  intro width
  induction width with
  | zero => exact (Nat.mod_one n).symm
  | succ width ih =>
      have hsplit : n % 256 ^ (width + 1) = n % 256 ^ width + 256 ^ width * (n / 256 ^ width % 256) :=
        Nat.mod_mul
      rw [bigEndian, ofBigEndian, length_bigEndian, ih, UInt8.toNat_ofNat', hsplit,
        Nat.mul_comm, Nat.add_comm]

/-- The lowest bytes of a number do not see a multiple of their range. -/
theorem bigEndian_mul_add (width n k : Nat) :
    bigEndian width (k * 256 ^ width + n) = bigEndian width n := by
  induction width generalizing k with
  | zero => rfl
  | succ width ih =>
      have hpow : k * 256 ^ (width + 1) = k * 256 * 256 ^ width := by ring
      have hdiv : (k * 256 * 256 ^ width + n) / 256 ^ width = k * 256 + n / 256 ^ width := by
        rw [Nat.mul_comm (k * 256), Nat.mul_add_div (Nat.pow_pos (by decide))]
      rw [bigEndian, bigEndian, hpow, ih (k * 256), hdiv]
      congr 1
      apply UInt8.toNat_inj.mp
      rw [UInt8.toNat_ofNat', UInt8.toNat_ofNat']
      omega

/-- Bytes are those of the number they write. -/
theorem bigEndian_ofBigEndian (bytes : List UInt8) :
    bigEndian bytes.length (ofBigEndian bytes) = bytes := by
  induction bytes with
  | nil => rfl
  | cons b rest ih =>
      have hdiv : ofBigEndian (b :: rest) / 256 ^ rest.length = b.toNat := by
        rw [ofBigEndian, Nat.mul_comm, Nat.mul_add_div (Nat.pow_pos (by decide)),
          Nat.div_eq_of_lt (ofBigEndian_lt rest), Nat.add_zero]
      rw [List.length_cons, bigEndian, hdiv, UInt8.ofNat_toNat, ofBigEndian, bigEndian_mul_add, ih]

end KaduoxSsh.Codec
