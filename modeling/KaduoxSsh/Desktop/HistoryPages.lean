import KaduoxSsh.Desktop.History

/-!
# The pages of the history of runs

The pages are the runs that are asked for, the newest first, in pieces of 50. Whatever page is
asked for, one is shown that there is.
-/

namespace KaduoxSsh.Desktop.History

open Text Lines Result List

/-! ## Pages of a list -/

section

variable {α : Type}

/-- A page that is cut out from behind is one that is cut out of the reversed list. -/
theorem reverse_page (l : List α) (offset size : Nat) :
    ((l.drop (l.length - offset - size)).take
        (l.length - offset - (l.length - offset - size))).reverse =
      (l.reverse.drop offset).take size := by
  have hlength : (l.take (l.length - offset)).length = l.length - offset := by
    rw [length_take]
    omega
  rw [drop_reverse, take_reverse, hlength, drop_take]

/-- Some pages, one behind the other. -/
theorem flatMap_pages (l : List α) (size n : Nat) :
    ((List.range n).flatMap fun i ↦ (l.drop (i * size)).take size) = l.take (n * size) := by
  induction n with
  | zero => rw [range_zero, flatMap_nil, Nat.zero_mul, take_zero]
  | succ n ih =>
      rw [range_succ, flatMap_append, flatMap_singleton, ih, Nat.succ_mul,
        take_add]

end

theorem divCeil_spec (n : Nat) :
    n ≤ divCeil n PAGE_SIZE * PAGE_SIZE ∧ divCeil n PAGE_SIZE * PAGE_SIZE < n + PAGE_SIZE := by
  rw [divCeil, PAGE_SIZE]
  split
  · omega
  · omega

/-! ## The runs that are asked for -/

/-- A run is asked for. -/
def PageFilter.Passes (filter : PageFilter) (entry : HistoryEntryDto) : Prop :=
  (∀ hostAlias ∈ filter.hostAlias, entry.hostAlias = hostAlias) ∧
    ∀ range ∈ filter.dayRange,
      range.1 ≤ entry.startedAtUnix ∧ entry.startedAtUnix < range.2

instance (filter : PageFilter) (entry : HistoryEntryDto) : Decidable (filter.Passes entry) :=
  @instDecidableAnd _ _ (Option.decidableForallMem _) (Option.decidableForallMem _)

namespace RunReader

variable {fromStr : RunReader} {filter : PageFilter} {texts : List String} {bytes : List UInt8}

/-- The runs of a history that are asked for. Lines that are no runs are passed over. -/
def passing (fromStr : RunReader) (filter : PageFilter) (texts : List String) :
    List HistoryEntryDto :=
  (texts.filterMap fromStr).filter filter.Passes

theorem inRange_of_none {line : String} (h : fromStr line = none) :
    inRange fromStr filter line = false := by
  rw [inRange, h]

theorem inRange_of_some {line : String} {entry : HistoryEntryDto} (h : fromStr line = some entry) :
    inRange fromStr filter line = decide (filter.Passes entry) := by
  obtain ⟨dayRange, hostAlias⟩ := filter
  rw [inRange, h]
  cases hostAlias
  all_goals cases dayRange
  all_goals simp [PageFilter.Passes]

/-- The lines in the range are read as the runs that are asked for. -/
theorem map_filter_inRange (fromStr : RunReader) (filter : PageFilter) (texts : List String) :
    (texts.filter (inRange fromStr filter)).map fromStr =
      (passing fromStr filter texts).map some := by
  induction texts with
  | nil => rfl
  | cons line texts ih =>
      rw [passing] at ih ⊢
      cases hline : fromStr line with
      | none =>
          rw [filter_cons, inRange_of_none hline, filterMap_cons_none hline]
          exact ih
      | some entry =>
          rw [filter_cons, inRange_of_some hline, filterMap_cons_some hline,
            filter_cons]
          split
          · rw [map_cons, map_cons, hline, ih]
          · exact ih

theorem map_shown (texts : List String) (start size : Nat) :
    (((texts.filter (inRange fromStr filter)).drop start).take size).map fromStr =
      (((passing fromStr filter texts).drop start).take size).map some := by
  rw [map_take, map_drop, map_filter_inRange, ← map_drop, ← map_take]

theorem length_passing (fromStr : RunReader) (filter : PageFilter) (texts : List String) :
    (texts.filter (inRange fromStr filter)).length = (passing fromStr filter texts).length := by
  have h := congrArg List.length (map_filter_inRange fromStr filter texts)
  rwa [length_map, length_map] at h

theorem countLines_eq {n : Nat} (h : n + texts.length < 2 ^ 64) :
    countLines fromStr filter n (texts.map some) =
      .ok (n + (texts.filter (inRange fromStr filter)).length) := by
  induction texts generalizing n with
  | nil => rfl
  | cons line texts ih =>
      rw [length_cons] at h
      have hbool : (inRange fromStr filter line).toNat ≤ 1 := Bool.toNat_le _
      have hadd : addUsize n (inRange fromStr filter line).toNat =
          .ok (n + (inRange fromStr filter line).toNat) := by
        rw [addUsize, bailIf_of_not (by omega)]
        rfl
      have hline : lineText (some line) = .ok line := rfl
      rw [map_cons, countLines, hline, bind_ok, hadd, bind_ok, ih (by omega),
        filter_cons]
      cases inRange fromStr filter line
      · rfl
      · rw [if_pos rfl, length_cons, Bool.toNat_true, Nat.add_assoc, Nat.add_comm 1]

theorem textsBefore_eq (texts : List String) : textsBefore (texts.map some) = texts := by
  induction texts with
  | nil => rfl
  | cons line texts ih => rw [map_cons, textsBefore, ih]

/-- Lines that are runs are read. -/
theorem mapM_fromStr {lines : List String} {entries : List HistoryEntryDto} {text message : String}
    (h : lines.map fromStr = entries.map some) :
    (lines.mapM fun line ↦ context text (ofOption message (fromStr line))) =
      .ok entries := by
  induction lines generalizing entries with
  | nil =>
      obtain rfl := map_eq_nil_iff.mp h.symm
      rfl
  | cons line lines ih =>
      cases entries with
      | nil => cases h
      | cons entry entries =>
          obtain ⟨hline, hlines⟩ := List.cons.inj h
          rw [mapM_cons, hline, ih hlines]
          rfl

/-- The number of the page that is shown. -/
def pageNumber (total : Nat) (requested : UInt64) : Nat :=
  min (max requested.toNat 1) (max (divCeil total PAGE_SIZE) 1)

/-- The page that is shown. -/
theorem page_eq (fromStr : RunReader) (filter : PageFilter)
    (hlines : fileLines bytes = texts.map some) (hcount : texts.length < 2 ^ 64)
    (requested : UInt64) :
    let runs := passing fromStr filter texts
    let number := pageNumber runs.length requested
    page fromStr filter (.ok bytes) requested =
      .ok ⟨(runs.reverse.drop ((number - 1) * PAGE_SIZE)).take PAGE_SIZE, runs.length, number,
        PAGE_SIZE⟩ := by
  intro runs number
  have hle : runs.length ≤ texts.length :=
    (length_passing fromStr filter texts).symm.trans_le (length_filter_le _ _)
  have hspec := divCeil_spec runs.length
  have hnumber : 1 ≤ number ∧ (number - 1) * PAGE_SIZE ≤ runs.length := by
    change 1 ≤ pageNumber runs.length requested ∧
      (pageNumber runs.length requested - 1) * PAGE_SIZE ≤ runs.length
    rw [PAGE_SIZE] at hspec
    rw [pageNumber, PAGE_SIZE]
    omega
  have hsub : subUsize number 1 = .ok (number - 1) := by
    rw [subUsize, bailIf_of_not (by omega)]
    rfl
  have hmul : mulUsize (number - 1) PAGE_SIZE = .ok ((number - 1) * PAGE_SIZE) := by
    rw [mulUsize, bailIf_of_not (by omega)]
    rfl
  generalize (number - 1) * PAGE_SIZE = offset at hnumber hmul ⊢
  have hstop : subUsize (runs.length - offset) (runs.length - offset - PAGE_SIZE) =
      .ok (runs.length - offset - (runs.length - offset - PAGE_SIZE)) := by
    rw [subUsize, bailIf_of_not (by omega)]
    rfl
  rw [page, hlines, countLines_eq (by omega), textsBefore_eq, length_passing, Nat.zero_add,
    bind_ok]
  change (do
    let first ← subUsize number 1
    let offset ← mulUsize first PAGE_SIZE
    let size ← subUsize (runs.length - offset) (runs.length - offset - PAGE_SIZE)
    let entries ← (((texts.filter (inRange fromStr filter)).drop
      (runs.length - offset - PAGE_SIZE)).take size).mapM
        fun line ↦ context "运行记录损坏；原文件已保留，请备份后检查"
          (ofOption "invalid entry" (fromStr line))
    return (⟨entries.reverse, runs.length, number, PAGE_SIZE⟩ : HistoryPage)) = _
  rw [hsub, bind_ok, hmul, bind_ok, hstop, bind_ok,
    mapM_fromStr (map_shown texts _ _), bind_ok, reverse_page]
  rfl

/-! ## All pages -/

/-- The runs on a page that is shown. -/
def entriesOf (shown : Result HistoryPage) : List HistoryEntryDto :=
  match shown with
  | .ok page => page.entries
  | .error _ => []

/-- The pages that are shown of some runs are these, the newest first, in full pages but for the
last one; and whatever page is asked for, one is shown that there is. -/
structure Partitions (shown : UInt64 → Result HistoryPage) (runs : List HistoryEntryDto) :
    Prop where
  clamped : ∀ requested, ∃ page, shown requested = .ok page ∧ page.total = runs.length ∧
    page.page = min (max requested.toNat 1) (max (divCeil runs.length PAGE_SIZE) 1) ∧
    shown (UInt64.ofNat page.page) = .ok page
  all : ((List.range (divCeil runs.length PAGE_SIZE)).flatMap fun i ↦
    entriesOf (shown (UInt64.ofNat (i + 1)))) = runs.reverse
  full : ∀ i, i + 1 < divCeil runs.length PAGE_SIZE →
    (entriesOf (shown (UInt64.ofNat (i + 1)))).length = PAGE_SIZE

theorem pageNumber_ofNat {total n : Nat} (hpos : 1 ≤ n) (hle : n ≤ max (divCeil total PAGE_SIZE) 1)
    (hlt : n < 2 ^ 64) : pageNumber total (UInt64.ofNat n) = n := by
  rw [pageNumber, UInt64.toNat_ofNat_of_lt' hlt, Nat.max_eq_left hpos, Nat.min_eq_left hle]

theorem pages_partition (fromStr : RunReader) (filter : PageFilter) (bytes : List UInt8)
    (texts : List String) (hlines : fileLines bytes = texts.map some)
    (hsize : bytes.length < 2 ^ 64) :
    Partitions (page fromStr filter (.ok bytes)) (passing fromStr filter texts) := by
  have hcount : texts.length < 2 ^ 64 := by
    have hlength := congrArg List.length hlines
    rw [fileLines, length_map, length_map] at hlength
    exact hlength ▸ (length_lines_le newline bytes).trans_lt hsize
  have hle : (passing fromStr filter texts).length ≤ texts.length :=
    (length_passing fromStr filter texts).symm.trans_le (length_filter_le _ _)
  have hpage := page_eq fromStr filter hlines hcount
  generalize passing fromStr filter texts = runs at hle hpage ⊢
  obtain ⟨hspec, hspec'⟩ := divCeil_spec runs.length
  rw [PAGE_SIZE] at hspec hspec'
  have hlast : divCeil runs.length PAGE_SIZE < 2 ^ 64 := by
    rw [PAGE_SIZE]
    omega
  -- The page with a number that there is.
  have hentries : ∀ i, i < divCeil runs.length PAGE_SIZE →
      entriesOf (page fromStr filter (.ok bytes) (UInt64.ofNat (i + 1))) =
        (runs.reverse.drop (i * PAGE_SIZE)).take PAGE_SIZE := by
    intro i hi
    have hnumber : pageNumber runs.length (UInt64.ofNat (i + 1)) = i + 1 :=
      pageNumber_ofNat (Nat.succ_pos i) (Nat.le_trans hi (Nat.le_max_left _ _)) (by omega)
    rw [hpage, hnumber, Nat.add_sub_cancel]
    rfl
  refine ⟨fun requested ↦ ⟨_, hpage requested, rfl, rfl, ?_⟩, ?_, fun i hi ↦ ?_⟩
  · have hpos : 1 ≤ pageNumber runs.length requested := by
      rw [pageNumber]
      omega
    have hmax : pageNumber runs.length requested ≤ max (divCeil runs.length PAGE_SIZE) 1 :=
      Nat.min_le_right _ _
    have hnumber := pageNumber_ofNat hpos hmax (by omega)
    refine (hpage (UInt64.ofNat (pageNumber runs.length requested))).trans ?_
    rw [hnumber]
  · have hpages : ((List.range (divCeil runs.length PAGE_SIZE)).flatMap fun i ↦
        entriesOf (page fromStr filter (.ok bytes) (UInt64.ofNat (i + 1)))) =
        (List.range (divCeil runs.length PAGE_SIZE)).flatMap fun i ↦
          (runs.reverse.drop (i * PAGE_SIZE)).take PAGE_SIZE :=
      flatMap_congr fun i hi ↦ hentries i (mem_range.mp hi)
    rw [hpages, flatMap_pages, take_of_length_le]
    rw [length_reverse]
    exact hspec
  · rw [hentries i (Nat.lt_of_succ_lt hi), length_take, length_drop, length_reverse,
      PAGE_SIZE]
    rw [PAGE_SIZE] at hi
    omega

/-- A run and its line. Every eighteenth is on another host. -/
def sampleRun (i : Nat) : HistoryEntryDto :=
  ⟨toString i, if i % 18 = 0 then "db" else "web", none, none, "ls", some 0, true, "", 5, 1⟩

def sampleLine (i : Nat) : String :=
  "\x7b\"id\":\"" ++ toString i ++ "\",\"alias\":\"" ++ (if i % 18 = 0 then "db" else "web") ++
    "\",\"username\":null,\"source\":null,\"command\":\"ls\",\"exitStatus\":0," ++
    "\"succeeded\":true,\"outputPreview\":\"\",\"startedAtUnix\":5,\"durationMs\":1\x7d"

def sampleReader : RunReader := fun line ↦
  ((List.range 54).find? fun i ↦ sampleLine i = line).map sampleRun

def sampleFilter : PageFilter := ⟨some (0, 10), some "web"⟩

def sampleTexts : List String := "damaged" :: (List.range 54).map sampleLine

def sampleRuns : List HistoryEntryDto :=
  ((List.range 54).map sampleRun).filter sampleFilter.Passes

/-- Two pages, the second with one run. -/
theorem pages_partition_sample :
    Partitions (page sampleReader sampleFilter
      (.ok (sampleTexts.flatMap fun text ↦ utf8 text ++ [newline]))) sampleRuns ∧
      sampleRuns.length = 51 := by
  have hruns : passing sampleReader sampleFilter sampleTexts = sampleRuns := by
    decide +kernel
  have hlines : fileLines (sampleTexts.flatMap fun text ↦ utf8 text ++ [newline]) =
      sampleTexts.map some := fileLines_flatMap (by decide +kernel)
  refine ⟨?_, by decide +kernel⟩
  rw [← hruns]
  exact pages_partition sampleReader sampleFilter _ _ hlines (by decide +kernel)

end RunReader

end KaduoxSsh.Desktop.History
