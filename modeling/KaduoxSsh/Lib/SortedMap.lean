import Mathlib.Data.List.Sort
import Mathlib.Data.List.Nodup
import Mathlib.Data.List.Pairwise
import Mathlib.Order.Basic

/-!
# Finite maps as sorted association lists

A `SortedMap κ ν` is a finite map kept as the list of its entries in strictly
increasing key order.  The order is a field of the structure, so two maps with
the same lookups are *equal*, not merely equivalent, and a traversal visits the
keys in order.  This is the behaviour of an ordered tree map whose balancing is
not observable.

Everything is reduced to membership: `mem_insert`, `mem_erase` and `mem_mapVal`
say which entries an operation leaves, `get?_eq_some_iff` says a lookup is a
membership test, and the lookup lemmas are corollaries.
-/

namespace KaduoxSsh

open List

universe u v w

/-! ## Lists of pairs -/

theorem lookup_eq_some_iff_mem {α : Type u} {β : Type v} [DecidableEq α] {l : List (α × β)}
    (hkeys : (l.map Prod.fst).Nodup) {key : α} {value : β} :
    l.lookup key = some value ↔ (key, value) ∈ l := by
  induction l with
  | nil => simp
  | cons entry rest ih =>
      rw [map_cons, nodup_cons] at hkeys
      rw [lookup_cons, mem_cons]
      by_cases heq : key = entry.1
      · have hrest : (key, value) ∉ rest := fun hmem ↦
          hkeys.1 (heq ▸ mem_map_of_mem (f := Prod.fst) hmem)
        simp only [heq, beq_self_eq_true, Option.some_inj]
        rw [← heq, or_iff_left hrest, Prod.ext_iff]
        exact ⟨fun h ↦ ⟨heq, h.symm⟩, fun h ↦ h.2.symm⟩
      · have hne : (key, value) ≠ entry := fun h ↦ heq (congrArg Prod.fst h)
        simp only [beq_eq_false_iff_ne.mpr heq, hne, false_or]
        exact ih hkeys.2
theorem lookup_eq_none_iff_notMem {α : Type u} {β : Type v} [DecidableEq α] {l : List (α × β)} {key : α} :
    l.lookup key = none ↔ ∀ value, (key, value) ∉ l := by
  rw [lookup_eq_none_iff]
  constructor
  · intro h value hmem
    simpa using h _ hmem
  · rintro h ⟨k, value⟩ hmem
    simp only [bne_iff_ne, ne_eq]
    rintro rfl
    exact h value hmem

/-! ## Sorted lists -/

/-- A finite map: its entries, in strictly increasing order of their keys. -/
structure SortedMap (κ : Type u) (ν : Type v) [LinearOrder κ] where
  /-- The entries, smallest key first. -/
  entries : List (κ × ν)
  /-- The keys increase strictly, so no key occurs twice. -/
  sorted : entries.Pairwise fun a b ↦ a.1 < b.1
deriving DecidableEq

namespace SortedMap

variable {κ : Type u} {ν : Type v} {μ : Type w} [LinearOrder κ] {m : SortedMap κ ν} {k : κ}
  {key : ν → κ} {e : κ × ν} {v : ν}

instance : Inhabited (SortedMap κ ν) := ⟨⟨[], .nil⟩⟩

/-- The map with no entry. -/
def empty : SortedMap κ ν := ⟨[], .nil⟩

/-- The value at a key, if it has one. -/
def get? (m : SortedMap κ ν) (k : κ) : Option ν :=
  (m.entries.find? fun e ↦ decide (e.1 = k)).map Prod.snd

def contains (m : SortedMap κ ν) (k : κ) : Bool := (m.get? k).isSome

def keys (m : SortedMap κ ν) : List κ := m.entries.map Prod.fst

def values (m : SortedMap κ ν) : List ν := m.entries.map Prod.snd

def size (m : SortedMap κ ν) : Nat := m.entries.length

/-- Put an entry at its place in a sorted list, over an entry with the same key. -/
def insertEntry (k : κ) (v : ν) : List (κ × ν) → List (κ × ν)
  | [] => [(k, v)]
  | e :: rest =>
      if k < e.1 then (k, v) :: e :: rest
      else if e.1 = k then (k, v) :: rest
      else e :: insertEntry k v rest

/-! ## Entries and lookups -/

theorem eq_of_mem_of_mem {v v' : ν} (h : (k, v) ∈ m.entries) (h' : (k, v') ∈ m.entries) :
    v = v' := by
  by_contra hne
  have hsymm : Std.Symm fun a b : κ × ν ↦ a.1 ≠ b.1 := ⟨fun _ _ hab ↦ hab.symm⟩
  have hp : m.entries.Pairwise fun a b ↦ a.1 ≠ b.1 := m.sorted.imp ne_of_lt
  exact hp.forall h h' (fun hc ↦ hne (congrArg Prod.snd hc)) rfl

/-- A lookup is a membership test. -/
theorem get?_eq_some_iff : m.get? k = some v ↔ (k, v) ∈ m.entries := by
  constructor
  · intro h
    obtain ⟨e, he, rfl⟩ := Option.map_eq_some_iff.mp h
    have hk : e.1 = k := by simpa using List.find?_some he
    have hm := mem_of_find?_eq_some he
    rwa [show (k, e.2) = e by rw [← hk]]
  · intro h
    cases hf : m.entries.find? fun e ↦ decide (e.1 = k) with
    | none => exact absurd (List.find?_eq_none.mp hf (k, v) h) (by simp)
    | some e =>
        have hk : e.1 = k := by simpa using List.find?_some hf
        have hm : (k, e.2) ∈ m.entries := by
          rw [show (k, e.2) = e by rw [← hk]]
          exact mem_of_find?_eq_some hf
        rw [get?, hf, Option.map_some, eq_of_mem_of_mem hm h]

theorem get?_eq_none_iff : m.get? k = none ↔ ∀ v, (k, v) ∉ m.entries := by
  rw [Option.eq_none_iff_forall_ne_some]
  exact forall_congr' fun v ↦ not_congr get?_eq_some_iff

theorem contains_iff : m.contains k = true ↔ ∃ v, m.get? k = some v := by
  rw [contains, Option.isSome_iff_exists]

theorem contains_eq_false_iff : m.contains k = false ↔ m.get? k = none := by
  rw [contains, Option.isSome_eq_false_iff, Option.isNone_iff_eq_none]

theorem mem_values : v ∈ m.values ↔ ∃ k, m.get? k = some v := by
  simp only [values, mem_map, Prod.exists, exists_eq_right, get?_eq_some_iff]

theorem entries_nodup (m : SortedMap κ ν) : m.entries.Nodup :=
  m.sorted.imp fun hab hc ↦ ne_of_lt hab (congrArg Prod.fst hc)

/-- Maps with the same entries are equal: both lists are sorted by a strict order. -/
theorem ext_mem {m m' : SortedMap κ ν} (h : ∀ e, e ∈ m.entries ↔ e ∈ m'.entries) : m = m' := by
  have hperm : m.entries.Perm m'.entries :=
    (perm_ext_iff_of_nodup m.entries_nodup m'.entries_nodup).mpr h
  have heq : m.entries = m'.entries :=
    hperm.eq_of_pairwise (fun a b _ _ hab hba ↦ absurd hab (not_lt.mpr hba.le)) m.sorted m'.sorted
  cases m
  cases m'
  simpa using heq

/-- Maps with the same lookups are equal. -/
theorem ext_get? {m m' : SortedMap κ ν} (h : ∀ k, m.get? k = m'.get? k) : m = m' := by
  refine ext_mem fun e ↦ ?_
  rw [show e = (e.1, e.2) from rfl, ← get?_eq_some_iff, ← get?_eq_some_iff, h]

@[simp] theorem get?_empty (k : κ) : (empty : SortedMap κ ν).get? k = none := rfl

/-! ## Insertion -/

theorem mem_insertEntry {l : List (κ × ν)} (hl : l.Pairwise fun a b ↦ a.1 < b.1) :
    e ∈ insertEntry k v l ↔ e = (k, v) ∨ e ∈ l ∧ e.1 ≠ k := by
  induction l with
  | nil => simp [insertEntry]
  | cons hd tl ih =>
      obtain ⟨hhd, htl⟩ := pairwise_cons.mp hl
      by_cases hlt : k < hd.1
      · have hne : ∀ x ∈ hd :: tl, x.1 ≠ k := by
          intro x hx
          rcases mem_cons.mp hx with rfl | hx
          · exact ne_of_gt hlt
          · exact ne_of_gt (lt_trans hlt (hhd x hx))
        rw [insertEntry, if_pos hlt, mem_cons]
        exact or_congr_right ⟨fun h ↦ ⟨h, hne e h⟩, fun h ↦ h.1⟩
      · by_cases heq : hd.1 = k
        · have hne : ∀ x ∈ tl, x.1 ≠ k := fun x hx ↦ heq ▸ ne_of_gt (hhd x hx)
          rw [insertEntry, if_neg hlt, if_pos heq, mem_cons, mem_cons]
          refine or_congr_right ⟨fun h ↦ ⟨Or.inr h, hne e h⟩, ?_⟩
          rintro ⟨rfl | h, hk⟩
          · exact absurd heq hk
          · exact h
        · rw [insertEntry, if_neg hlt, if_neg heq, mem_cons, ih htl, mem_cons]
          constructor
          · rintro (rfl | rfl | ⟨h, hk⟩)
            · exact Or.inr ⟨Or.inl rfl, heq⟩
            · exact Or.inl rfl
            · exact Or.inr ⟨Or.inr h, hk⟩
          · rintro (rfl | ⟨rfl | h, hk⟩)
            · exact Or.inr (Or.inl rfl)
            · exact Or.inl rfl
            · exact Or.inr (Or.inr ⟨h, hk⟩)

theorem insertEntry_sorted (k : κ) (v : ν) {l : List (κ × ν)}
    (hl : l.Pairwise fun a b ↦ a.1 < b.1) :
    (insertEntry k v l).Pairwise fun a b ↦ a.1 < b.1 := by
  induction l with
  | nil => simp [insertEntry]
  | cons hd tl ih =>
      obtain ⟨hhd, htl⟩ := pairwise_cons.mp hl
      by_cases hlt : k < hd.1
      · rw [insertEntry, if_pos hlt]
        refine pairwise_cons.mpr ⟨fun x hx ↦ ?_, hl⟩
        rcases mem_cons.mp hx with rfl | hx
        · exact hlt
        · exact lt_trans hlt (hhd x hx)
      · by_cases heq : hd.1 = k
        · rw [insertEntry, if_neg hlt, if_pos heq]
          exact pairwise_cons.mpr ⟨fun x hx ↦ heq ▸ hhd x hx, htl⟩
        · rw [insertEntry, if_neg hlt, if_neg heq]
          refine pairwise_cons.mpr ⟨fun x hx ↦ ?_, ih htl⟩
          rcases (mem_insertEntry htl).mp hx with rfl | ⟨hx, -⟩
          · exact lt_of_le_of_ne (not_lt.mp hlt) heq
          · exact hhd x hx

/-- Put an entry, over any entry with the same key. -/
def insert (m : SortedMap κ ν) (k : κ) (v : ν) : SortedMap κ ν :=
  ⟨insertEntry k v m.entries, insertEntry_sorted k v m.sorted⟩

theorem mem_insert : e ∈ (m.insert k v).entries ↔ e = (k, v) ∨ e ∈ m.entries ∧ e.1 ≠ k :=
  mem_insertEntry m.sorted

@[simp] theorem get?_insert_self (m : SortedMap κ ν) (k : κ) (v : ν) :
    (m.insert k v).get? k = some v :=
  get?_eq_some_iff.mpr (mem_insert.mpr (Or.inl rfl))

theorem get?_insert_of_ne (m : SortedMap κ ν) {k k' : κ} (v : ν) (h : k' ≠ k) :
    (m.insert k v).get? k' = m.get? k' := by
  refine Option.ext fun x ↦ ?_
  rw [get?_eq_some_iff, get?_eq_some_iff, mem_insert]
  constructor
  · rintro (hx | ⟨hx, -⟩)
    · exact absurd (congrArg Prod.fst hx) h
    · exact hx
  · exact fun hx ↦ Or.inr ⟨hx, h⟩

theorem get?_insert (m : SortedMap κ ν) (k k' : κ) (v : ν) :
    (m.insert k v).get? k' = if k' = k then some v else m.get? k' := by
  split
  · next h => rw [h, get?_insert_self]
  · next h => exact get?_insert_of_ne m v h

/-- Putting back the value a key already has changes nothing. -/
theorem insert_get?_self (h : m.get? k = some v) : m.insert k v = m := by
  refine ext_get? fun k' ↦ ?_
  rw [get?_insert]
  split
  · next hk => rw [hk, h]
  · rfl

theorem insert_insert (m : SortedMap κ ν) (k : κ) (v v' : ν) :
    (m.insert k v).insert k v' = m.insert k v' := by
  refine ext_get? fun k' ↦ ?_
  simp only [get?_insert]
  split <;> rfl

/-! ## Removal and mapping -/

/-- Drop the entry at a key. -/
def erase (m : SortedMap κ ν) (k : κ) : SortedMap κ ν :=
  ⟨m.entries.filter fun e ↦ decide (e.1 ≠ k), m.sorted.filter _⟩

theorem mem_erase : e ∈ (m.erase k).entries ↔ e ∈ m.entries ∧ e.1 ≠ k := by
  simp [erase, mem_filter]

theorem get?_erase (m : SortedMap κ ν) (k k' : κ) :
    (m.erase k).get? k' = if k' = k then none else m.get? k' := by
  refine Option.ext fun x ↦ ?_
  split
  · next h => simp [get?_eq_some_iff, mem_erase, h]
  · next h =>
      rw [get?_eq_some_iff, get?_eq_some_iff, mem_erase]
      exact ⟨fun hx ↦ hx.1, fun hx ↦ ⟨hx, h⟩⟩

/-- Dropping a key that was just added to a map without it gives the map back. -/
theorem erase_insert_of_get?_none (v : ν) (h : m.get? k = none) : (m.insert k v).erase k = m := by
  refine ext_get? fun k' ↦ ?_
  rw [get?_erase, get?_insert]
  split
  · next hk => rw [hk, h]
  · rfl

/-- Dropping many keys drops those and no others. -/
theorem get?_foldl_erase (l : List κ) (m : SortedMap κ ν) (k : κ) :
    (l.foldl erase m).get? k = if k ∈ l then none else m.get? k := by
  induction l generalizing m with
  | nil => simp
  | cons k' l ih =>
      rw [foldl_cons, ih, get?_erase]
      by_cases hl : k ∈ l
      · simp [hl]
      · by_cases hk : k = k' <;> simp [hl, hk]

/-- Change every value, keeping its key. -/
def mapVal (f : ν → μ) (m : SortedMap κ ν) : SortedMap κ μ :=
  ⟨m.entries.map fun e ↦ (e.1, f e.2), pairwise_map.mpr m.sorted⟩

theorem mem_mapVal {f : ν → μ} {x : μ} :
    (k, x) ∈ (m.mapVal f).entries ↔ ∃ v, (k, v) ∈ m.entries ∧ f v = x := by
  simp [mapVal]

theorem get?_mapVal (f : ν → μ) (m : SortedMap κ ν) (k : κ) :
    (m.mapVal f).get? k = (m.get? k).map f := by
  refine Option.ext fun x ↦ ?_
  rw [get?_eq_some_iff, mem_mapVal, Option.map_eq_some_iff]
  exact exists_congr fun v ↦ and_congr_left' get?_eq_some_iff.symm

/-! ## Insertion of many entries -/

theorem mem_foldl_insert {α : Type w} {key : α → κ} {value : α → ν} {l : List α}
    (h : (l.map key).Nodup) :
    e ∈ (l.foldl (fun acc a ↦ acc.insert (key a) (value a)) m).entries ↔
      (∃ a ∈ l, e = (key a, value a)) ∨ e ∈ m.entries ∧ e.1 ∉ l.map key := by
  induction l generalizing m with
  | nil => simp
  | cons a l ih =>
      obtain ⟨ha, hl⟩ := nodup_cons.mp h
      rw [foldl_cons, ih hl, mem_insert]
      constructor
      · rintro (⟨b, hb, rfl⟩ | ⟨rfl | ⟨he, hne⟩, hfresh⟩)
        · exact .inl ⟨b, mem_cons_of_mem a hb, rfl⟩
        · exact .inl ⟨a, mem_cons_self, rfl⟩
        · refine .inr ⟨he, ?_⟩
          rw [map_cons, mem_cons]
          rintro (hc | hc)
          · exact hne hc
          · exact hfresh hc
      · rintro (⟨b, hb, rfl⟩ | ⟨he, hfresh⟩)
        · rcases mem_cons.mp hb with rfl | hb
          · exact .inr ⟨.inl rfl, ha⟩
          · exact .inl ⟨b, hb, rfl⟩
        · rw [map_cons, mem_cons, not_or] at hfresh
          exact .inr ⟨.inr ⟨he, hfresh.1⟩, hfresh.2⟩

theorem keys_sorted (m : SortedMap κ ν) : m.keys.Pairwise (· < ·) :=
  pairwise_map.mpr m.sorted

theorem keys_nodup (m : SortedMap κ ν) : m.keys.Nodup :=
  m.keys_sorted.imp ne_of_lt

theorem mem_keys : k ∈ m.keys ↔ m.contains k = true := by
  simp [keys, contains_iff, get?_eq_some_iff]

/-- The keys after an insertion of many entries, of which several may have one key. -/
theorem contains_foldl_insert {α : Type w} (key : α → κ) (value : α → ν) (l : List α)
    (m : SortedMap κ ν) (k : κ) :
    (l.foldl (fun acc a ↦ acc.insert (key a) (value a)) m).contains k = true ↔
      k ∈ l.map key ∨ m.contains k = true := by
  induction l generalizing m with
  | nil => simp
  | cons a l ih =>
      rw [foldl_cons, ih, map_cons, mem_cons]
      by_cases hk : k = key a
      · simp [contains, hk]
      · simp [contains, get?_insert, hk]

/-- Maps with the same keys have the same number of entries. -/
theorem size_congr {m' : SortedMap κ μ} (h : ∀ k, m.contains k = m'.contains k) :
    m.size = m'.size := by
  have hperm : m.keys.Perm m'.keys := by
    rw [perm_ext_iff_of_nodup m.keys_nodup m'.keys_nodup]
    intro k
    rw [mem_keys, mem_keys, h]
  simpa [size, keys] using hperm.length_eq

/-- A key that was not there makes one more entry. -/
theorem size_insert (v : ν) (h : m.get? k = none) : (m.insert k v).size = m.size + 1 := by
  have hfresh : k ∉ m.keys := by
    rw [mem_keys, contains, h]
    exact Bool.false_ne_true
  have hperm : (m.insert k v).keys.Perm (k :: m.keys) := by
    refine (perm_ext_iff_of_nodup (keys_nodup _) (nodup_cons.mpr ⟨hfresh,
      m.keys_nodup⟩)).mpr fun k' ↦ ?_
    rw [mem_cons, mem_keys, mem_keys, contains, contains, get?_insert]
    split
    · next hk => simp [hk]
    · next hk => simp [hk]
  simpa [size, keys] using hperm.length_eq

theorem size_erase_le (m : SortedMap κ ν) (k : κ) : (m.erase k).size ≤ m.size :=
  length_filter_le _ _

/-- The keys of a map whose values know their keys. -/
theorem map_key_values (hkey : ∀ k v, m.get? k = some v → key v = k) :
    m.values.map key = m.keys := by
  rw [values, keys, map_map]
  refine map_congr_left fun e he ↦ hkey e.1 e.2 (get?_eq_some_iff.mpr he)

/-- A map whose values know their keys is rebuilt by inserting its values. -/
theorem foldl_insert_values (hkey : ∀ k v, m.get? k = some v → key v = k) (f : ν → μ) :
    m.values.foldl (fun acc v ↦ acc.insert (key v) (f v)) .empty = m.mapVal f := by
  refine ext_mem fun e ↦ ?_
  have hnodup : (m.values.map key).Nodup := by
    rw [map_key_values hkey]
    exact m.keys_nodup
  rw [mem_foldl_insert hnodup, show e = (e.1, e.2) from rfl, mem_mapVal]
  constructor
  · rintro (⟨v, hv, he⟩ | ⟨he, -⟩)
    · obtain ⟨k, hget⟩ := mem_values.mp hv
      obtain ⟨h1, h2⟩ := Prod.mk.inj he
      refine ⟨v, ?_, h2.symm⟩
      rw [h1, hkey k v hget]
      exact get?_eq_some_iff.mp hget
    · cases he
  · rintro ⟨v, hmem, hf⟩
    have hget := get?_eq_some_iff.mpr hmem
    exact .inl ⟨v, mem_values.mpr ⟨e.1, hget⟩, by rw [hkey e.1 v hget, hf]⟩

theorem entries_mapVal (hkey : ∀ k v, m.get? k = some v → key v = k) (f : ν → μ) :
    (m.mapVal f).entries = m.values.map fun v ↦ (key v, f v) := by
  rw [mapVal, values, map_map]
  refine map_congr_left fun e he ↦ ?_
  rw [Function.comp_apply, hkey e.1 e.2 (get?_eq_some_iff.mpr he)]

/-- Inserting all the values of a map into one with no other keys gives the map. -/
theorem foldl_insert_values_of_keys {m acc : SortedMap κ ν}
    (hkey : ∀ k v, m.get? k = some v → key v = k) (hacc : ∀ e ∈ acc.entries, e.1 ∈ m.keys) :
    m.values.foldl (fun acc v ↦ acc.insert (key v) v) acc = m := by
  refine ext_mem fun e ↦ ?_
  have hkeys := map_key_values hkey
  have hnodup : (m.values.map key).Nodup := by
    rw [hkeys]
    exact m.keys_nodup
  rw [mem_foldl_insert hnodup, hkeys]
  constructor
  · rintro (⟨v, hv, rfl⟩ | ⟨he, hfresh⟩)
    · obtain ⟨k, hget⟩ := mem_values.mp hv
      rw [hkey k v hget]
      exact get?_eq_some_iff.mp hget
    · exact absurd (hacc e he) hfresh
  · intro he
    have hget := get?_eq_some_iff.mpr he
    exact .inl ⟨e.2, mem_values.mpr ⟨e.1, hget⟩, by rw [hkey e.1 e.2 hget]⟩

end SortedMap

end KaduoxSsh
