import KaduoxSsh.Lib.Words

/-!
# Boundaries of characters

A program that reads the bytes of a text and borrows parts of it has to cut the
text between its characters. A byte of ASCII is a character of its own, so the text
may be cut before and behind it, and what lies between two places where it may be
cut is a text again.
-/

namespace KaduoxSsh.Text

/-- A place in the bytes of a text that lies inside no character. -/
def IsBoundary (s : String) (p : Nat) : Prop := String.Pos.Raw.IsValid s ⟨p⟩

instance (s : String) (p : Nat) : Decidable (IsBoundary s p) :=
  decidable_of_iff _ String.Pos.Raw.isValid_eq_true_iff

variable {s : String} {p start stop : Nat} {b : UInt8}

theorem isBoundary_iff :
    IsBoundary s p ↔ ∃ front back, s = front ++ back ∧ p = (utf8 front).length := by
  rw [IsBoundary, String.Pos.Raw.isValid_iff_exists_append]
  constructor
  · rintro ⟨front, back, hs, hp⟩
    exact ⟨front, back, hs, congrArg String.Pos.Raw.byteIdx hp⟩
  · rintro ⟨front, back, hs, hp⟩
    exact ⟨front, back, hs, congrArg String.Pos.Raw.mk hp⟩

theorem isBoundary_zero : IsBoundary s 0 := String.Pos.Raw.isValid_zero

theorem isBoundary_length : IsBoundary s (utf8 s).length := String.Pos.Raw.isValid_rawEndPos

theorem and_eq_zero_of_ascii (hascii : b < 0x80) : b &&& 0x80 = 0 := by
  have hall : ∀ n : Fin 256, UInt8.ofFin n < 0x80 → UInt8.ofFin n &&& 0x80 = 0 := by decide +kernel
  exact hall b.toFin hascii

/-- A byte of ASCII belongs to the character that it stands for. -/
theorem toNat_of_mem_utf8EncodeChar {c : Char} (hascii : b < 0x80)
    (hb : b ∈ String.utf8EncodeChar c) : c.toNat = b.toNat := by
  have hlt : b.toNat < 128 := UInt8.lt_iff_toNat_lt.mp hascii
  have hsmall : c.toNat ≤ 127 := by
    by_contra hlarge
    have := le_of_mem_utf8EncodeChar (Nat.le_refl 128) (Nat.lt_of_not_le hlarge) hb
    omega
  have hval : c.val ≤ 127 := UInt32.le_iff_toNat_le.mpr hsmall
  have hsize : c.utf8Size = 1 := if_pos hval
  rw [String.utf8EncodeChar_eq_singleton hsize, List.mem_singleton] at hb
  rw [hb, UInt32.toNat_toUInt8]
  exact (Nat.mod_eq_of_lt (Nat.lt_of_le_of_lt hsmall (by decide))).symm

theorem exists_of_mem_utf8 (hascii : b < 0x80) (hb : b ∈ utf8 s) :
    ∃ c ∈ s.toList, c.toNat = b.toNat := by
  obtain ⟨l, rfl⟩ : ∃ l, s = String.ofList l := ⟨s.toList, String.ofList_toList.symm⟩
  rw [String.toList_ofList]
  induction l with
  | nil => cases hb
  | cons c l ih =>
      rw [utf8_ofList_cons, List.mem_append] at hb
      rcases hb with hc | hl
      · exact ⟨c, List.mem_cons_self, toNat_of_mem_utf8EncodeChar hascii hc⟩
      · obtain ⟨d, hd, heq⟩ := ih hl
        exact ⟨d, List.mem_cons_of_mem c hd, heq⟩

/-- A text may be cut on both sides of a byte of ASCII. -/
theorem isBoundary_of_ascii (hb : (utf8 s)[p]? = some b) (hascii : b < 0x80) :
    IsBoundary s p ∧ IsBoundary s (p + 1) := by
  have hlt : p < (utf8 s).length := (List.getElem?_eq_some_iff.mp hb).1
  have hfirst : IsBoundary s p := by
    refine String.Pos.Raw.isValid_iff_isUTF8FirstByte.mpr (.inr ⟨hlt, .inl ?_⟩)
    have hbyte : s.getUTF8Byte ⟨p⟩ hlt = b := (List.getElem?_eq_some_iff.mp hb).2
    rw [hbyte]
    exact and_eq_zero_of_ascii hascii
  refine ⟨hfirst, ?_⟩
  obtain ⟨front, back, rfl, rfl⟩ := isBoundary_iff.mp hfirst
  rw [utf8_append, List.getElem?_append_right (Nat.le_refl _), Nat.sub_self] at hb
  obtain ⟨c, rest, rfl⟩ : ∃ c rest, back = String.singleton c ++ rest := by
    cases hback : back.toList with
    | nil =>
        rw [String.toList_eq_nil_iff.mp hback] at hb
        cases hb
    | cons c rest =>
        refine ⟨c, String.ofList rest, ?_⟩
        rw [← String.ofList_toList (s := back), hback, String.ofList_cons]
  have hsize : (utf8 (String.singleton c)).length = 1 := by
    rw [utf8_singleton, String.length_utf8EncodeChar, Char.utf8Size, if_pos]
    rw [utf8_append, utf8_singleton, List.getElem?_append_left] at hb
    · by_contra hbig
      have hlarge : 127 < c.toNat := Nat.lt_of_not_le fun h ↦ hbig (UInt32.le_iff_toNat_le.mpr h)
      have hle := le_of_mem_utf8EncodeChar (Nat.le_refl 128) hlarge (List.mem_of_getElem? hb)
      exact absurd (UInt8.lt_iff_toNat_lt.mp hascii) (Nat.not_lt_of_le hle)
    · rw [String.length_utf8EncodeChar]
      exact c.utf8Size_pos
  refine isBoundary_iff.mpr ⟨front ++ String.singleton c, rest, ?_, ?_⟩
  · rw [String.append_assoc]
  · rw [utf8_append, List.length_append, hsize]

/-- What lies between two boundaries is a text. -/
theorem exists_slice (hstart : IsBoundary s start) (hstop : IsBoundary s stop)
    (hle : start ≤ stop) :
    ∃ t, slice s start stop = some t ∧ utf8 t = (utf8 s).extract start stop := by
  have hlength : stop ≤ (utf8 s).length := hstop.le_rawEndPos
  have hvalid : (s.toByteArray.extract start stop).IsValidUTF8 :=
    (String.Pos.Raw.isValidUTF8_extract_iff ⟨start⟩ ⟨stop⟩ hle hlength).mpr (.inr ⟨hstart, hstop⟩)
  let t : String := ⟨_, hvalid⟩
  have ht : utf8 t = (utf8 s).extract start stop := by
    show (s.toByteArray.extract start stop).data.toList = _
    rw [ByteArray.data_extract, Array.toList_extract]
    rfl
  exact ⟨t, by rw [slice, if_pos ⟨hle, hlength⟩, fromUtf8_eq_some_iff.mpr ht], ht⟩

theorem utf8_join (texts : List String) :
    utf8 (String.join texts) = (texts.map utf8).flatten := by
  induction texts with
  | nil => rfl
  | cons t texts ih => rw [String.join_cons, utf8_append, ih, List.map_cons, List.flatten_cons]

end KaduoxSsh.Text
