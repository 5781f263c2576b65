import KaduoxSsh.Cli.LocalNames

/-!
# The names that are offered

`safe_local_filename` makes a portable name of each remote name, and leaves such names
alone, so that `validate_local_leaf` accepts exactly these. What the prompt for a
directory offers is what stands behind the last marker in the prompt. That is the name,
unless the name has a marker itself; then it is the rest of the name, which may be empty
or the name of a device.
-/

namespace KaduoxSsh.Cli

open Text Hosts Markers

/-! ## Portable names -/

/-- A text is the name of a device, with or without an extension, in any case. -/
def IsDeviceName (name : String) : Prop :=
  ∃ device ∈ deviceNames, ∃ extension : String,
    toAsciiUppercase name = device ++ extension ∧
      (extension = "" ∨ extension.toList.head? = some '.')

/-- A name that all systems take for the name of a file in a directory. -/
structure PortableLeaf (name : String) : Prop where
  ne_empty : name ≠ ""
  chars : ∀ c ∈ name.toList, isControl c = false ∧
    c ∉ ['/', '\\', ':', '*', '?', '"', '<', '>', '|']
  last : name.toList.getLast? ≠ some ' ' ∧ name.toList.getLast? ≠ some '.'
  device : ¬IsDeviceName name

/-- The characters of a name that `safe_local_filename` leaves alone. -/
structure Clean (output : List Char) : Prop where
  chars : ∀ c ∈ output, isReserved c = false
  last : endsBlank output = false

variable {output : List Char} {name : String} {c : Char}

theorem isReserved_replaceReserved (c : Char) : isReserved (replaceReserved c) = false := by
  rw [replaceReserved]
  cases h : isReserved c with
  | true => rfl
  | false => exact h

theorem replaceReserved_of_not (h : isReserved c = false) : replaceReserved c = c := by
  rw [replaceReserved, h]
  rfl

/-- The loop ends after its first round. -/
theorem endsBlank_replaceTrailing (output : List Char) :
    endsBlank (replaceTrailing output) = false := by
  rw [replaceTrailing]
  cases h : endsBlank output with
  | true => 
      rw [if_pos rfl, endsBlank, List.getLast?_concat]
      rfl
  | false => exact h

theorem replaceTrailing_of_not (h : endsBlank output = false) :
    replaceTrailing output = output := by
  rw [replaceTrailing, h]
  rfl

theorem replaceTrailing_ne_nil (h : output ≠ []) : replaceTrailing output ≠ [] := by
  rw [replaceTrailing]
  split
  · exact List.append_ne_nil_of_right_ne_nil _ (List.cons_ne_nil _ _)
  · exact h

theorem clean_replaceTrailing (h : ∀ c ∈ output, isReserved c = false) :
    Clean (replaceTrailing output) where
  last := endsBlank_replaceTrailing output
  chars c hc := by
    rw [replaceTrailing] at hc
    split at hc
    · rcases List.mem_append.mp hc with hold | hnew
      · exact h c (List.dropLast_subset _ hold)
      · rw [List.mem_singleton.mp hnew]
        rfl
    · exact h c hc

/-- What is left before the names of devices are looked at. -/
theorem clean_body (name : String) : Clean (replaceTrailing (name.toList.map replaceReserved)) := by
  apply clean_replaceTrailing
  intro c hc
  obtain ⟨d, -, rfl⟩ := List.mem_map.mp hc
  exact isReserved_replaceReserved d

theorem Clean.cons (h : Clean output) (hne : output ≠ []) : Clean ('_' :: output) where
  chars := List.forall_mem_cons.mpr ⟨rfl, h.chars⟩
  last := by
    obtain ⟨d, rest, rfl⟩ := List.exists_cons_of_ne_nil hne
    have hlast := h.last
    rw [endsBlank] at hlast ⊢
    rw [List.getLast?_cons_cons]
    exact hlast

/-- White space is cut behind the first letter only. -/
theorem exists_trim_cons (hc : isWhitespace c = false) (output : List Char) :
    ∃ rest, trim (c :: output) = c :: rest := by
  rw [trim, List.dropWhile_cons_of_neg (by rw [hc]; decide), List.reverse_cons,
    List.dropWhile_append]
  split
  · refine ⟨[], ?_⟩
    rw [List.dropWhile_cons_of_neg (by rw [hc]; decide)]
    rfl
  · exact ⟨_, by rw [List.reverse_append]; rfl⟩

theorem stem_cons_underscore (output : List Char) : stem ('_' :: output) ∉ deviceNames := by
  obtain ⟨rest, hrest⟩ := exists_trim_cons (c := '_') rfl (output.takeWhile fun c ↦ c ≠ '.')
  have hhead : (stem ('_' :: output)).toList.head? = some '_' := by
    rw [stem, List.takeWhile_cons_of_pos (by decide), hrest, toAsciiUppercase, String.toList_ofList,
      String.toList_ofList]
    rfl
  have hnone : ∀ device ∈ deviceNames, device.toList.head? ≠ some '_' := by decide
  exact fun hmem ↦ hnone _ hmem hhead

/-- What `safe_local_filename` leaves alone. -/
theorem safeLocalFilename_eq_self (hclean : Clean name.toList) (hne : name ≠ "")
    (hstem : stem name.toList ∉ deviceNames) : safeLocalFilename name = name := by
  have hmap : name.toList.map replaceReserved = name.toList := by
    apply (List.map_congr_left fun c hc ↦ replaceReserved_of_not (hclean.chars c hc)).trans
    exact List.map_id _
  have hempty : ¬(name.toList = [] ∨ name.toList = ['.'] ∨ name.toList = ['.', '.']) := by
    have hlast := hclean.last
    rintro (h | h | h)
    · exact hne (String.toList_eq_nil_iff.mp h)
    · rw [h] at hlast
      cases hlast
    · rw [h] at hlast
      cases hlast
  rw [safeLocalFilename, hmap, replaceTrailing_of_not hclean.last,
    if_neg hempty, if_neg hstem, String.ofList_toList]

/-- What `safe_local_filename` returns. -/
theorem safeLocalFilename_spec (name : String) :
    Clean (safeLocalFilename name).toList ∧ safeLocalFilename name ≠ "" ∧
      stem (safeLocalFilename name).toList ∉ deviceNames := by
  -- The name before the names of devices are looked at.
  obtain ⟨output, hclean, hne, hname⟩ : ∃ output, Clean output ∧ output ≠ [] ∧
      safeLocalFilename name =
        String.ofList (if stem output ∈ deviceNames then '_' :: output else output) := by
    rw [safeLocalFilename]
    split
    · exact ⟨_, ⟨by decide, by decide⟩, by decide, rfl⟩
    · next hne => exact ⟨_, clean_body name, fun h ↦ hne (.inl h), rfl⟩
  rw [hname, String.toList_ofList]
  split
  · exact ⟨hclean.cons hne, by simp [String.ofList_eq_empty_iff], stem_cons_underscore output⟩
  · next hstem => exact ⟨hclean, by simpa [String.ofList_eq_empty_iff] using hne, hstem⟩

/-- `validate_local_leaf` accepts what `safe_local_filename` leaves alone. -/
theorem validateLocalLeaf_eq_ok_iff :
    validateLocalLeaf name = .ok () ↔
      Clean name.toList ∧ name ≠ "" ∧ stem name.toList ∉ deviceNames := by
  rw [validateLocalLeaf]
  constructor
  · intro h
    split_ifs at h with hbad
    · exact absurd h (Result.bail_ne_ok _ _)
    · have heq : safeLocalFilename name = name := by
        by_contra hne
        exact hbad (.inr hne)
      have hspec := safeLocalFilename_spec name
      rwa [heq] at hspec
  · rintro ⟨hclean, hne, hstem⟩
    rw [if_neg]
    rintro (h | h)
    · exact hne h
    · exact h (safeLocalFilename_eq_self hclean hne hstem)

theorem validateLocalLeaf_safeLocalFilename (name : String) :
    validateLocalLeaf (safeLocalFilename name) = .ok () :=
  validateLocalLeaf_eq_ok_iff.mpr (safeLocalFilename_spec name)

theorem safeLocalFilename_idem (name : String) :
    safeLocalFilename (safeLocalFilename name) = safeLocalFilename name := by
  obtain ⟨hclean, hne, hstem⟩ := safeLocalFilename_spec name
  exact safeLocalFilename_eq_self hclean hne hstem

/-- A letter that is part of the name of a device in capitals is neither white space nor a dot. -/
theorem notWhitespace_of_toUpper {device : String} (hdevice : device ∈ deviceNames)
    (hc : c.toUpper ∈ device.toList) : isWhitespace c = false ∧ c ≠ '.' := by
  have hletters : ∀ device ∈ deviceNames, ∀ u ∈ device.toList, 48 ≤ u.toNat ∧ u.toNat ≤ 90 := by
    decide
  have hbounds : 48 ≤ c.toNat ∧ c.toNat ≤ 122 := by
    have hupper := hletters device hdevice c.toUpper hc
    rcases toUpper_eq_or c with h | h
    · rw [h] at hupper
      omega
    · omega
  constructor
  · exact isWhitespace_of_visible (by omega) (by omega)
  · rintro rfl
    exact absurd hbounds.1 (by decide)

theorem trim_of_notWhitespace (h : ∀ c ∈ output, isWhitespace c = false) :
    trim output = output := by
  have hkeep (l : List Char) (hl : ∀ c ∈ l, isWhitespace c = false) :
      l.dropWhile isWhitespace = l := by
    cases l with
    | nil => rfl
    | cons c rest => exact List.dropWhile_cons_of_neg (by rw [hl c List.mem_cons_self]; decide)
  rw [trim, hkeep output h, hkeep _ fun c hc ↦ h c (List.mem_reverse.mp hc), List.reverse_reverse]

/-- The stem of the name of a device is the device. -/
theorem stem_of_isDeviceName (h : IsDeviceName name) : stem name.toList ∈ deviceNames := by
  obtain ⟨device, hdevice, extension, hname, hextension⟩ := h
  have hupper : name.toList.map Char.toUpper = device.toList ++ extension.toList := by
    rw [← String.toList_append, ← hname, toAsciiUppercase, String.toList_ofList]
  obtain ⟨front, back, hsplit, hfront, hback⟩ := List.map_eq_append_iff.mp hupper
  have hletters (c : Char) (hc : c ∈ front) : isWhitespace c = false ∧ c ≠ '.' :=
    notWhitespace_of_toUpper hdevice (hfront ▸ List.mem_map_of_mem hc)
  have htake : name.toList.takeWhile (fun c ↦ c ≠ '.') = front := by
    rw [hsplit, List.takeWhile_append_of_pos fun c hc ↦ decide_eq_true (hletters c hc).2]
    cases back with
    | nil => exact List.append_nil front
    | cons c rest =>
        have hdot : c.toUpper = '.' := by
          rcases hextension with rfl | hhead
          · cases hback
          · rw [← hback] at hhead
            exact Option.some.inj hhead
        have hc : c = '.' := by
          rcases toUpper_eq_or c with h | h
          · exact h.symm.trans hdot
          · rw [hdot] at h
            exact absurd h.1 (by rw [← h.2.2]; decide)
        rw [List.takeWhile_cons_of_neg (by simp [hc]), List.append_nil]
  rw [stem, htake, trim_of_notWhitespace fun c hc ↦ (hletters c hc).1, toAsciiUppercase,
    String.toList_ofList, hfront, String.ofList_toList]
  exact hdevice

theorem portableLeaf_safeLocalFilename (name : String) : PortableLeaf (safeLocalFilename name) := by
  obtain ⟨hclean, hne, hstem⟩ := safeLocalFilename_spec name
  refine ⟨hne, fun c hc ↦ ?_, ?_, fun h ↦ hstem (stem_of_isDeviceName h)⟩
  · have hreserved := hclean.chars c hc
    rw [isReserved, Bool.or_eq_false_iff] at hreserved
    exact ⟨hreserved.1, fun hmem ↦ by simp [hmem] at hreserved⟩
  · have hlast := hclean.last
    rw [endsBlank, Bool.or_eq_false_iff] at hlast
    exact ⟨of_decide_eq_false hlast.1, of_decide_eq_false hlast.2⟩

/-! ## What a prompt offers -/

/-- The marker before the default in the prompt for a directory. -/
def marker : List Char := RECURSIVE_DOWNLOAD_DESTINATION_MARKER.toList

/-- What follows the default in the prompt for a directory. -/
def suffix : List Char := RECURSIVE_DOWNLOAD_DESTINATION_SUFFIX.toList

theorem marker_ne_nil : marker ≠ [] := by decide

theorem getLast?_marker : marker.getLast? = some '[' := by decide

theorem getLast?_marker_ne (hc : c ≠ '[') : marker.getLast? ≠ some c := by
  rw [getLast?_marker]
  exact fun h ↦ hc (Option.some.inj h).symm

theorem endsBlank_concat (output : List Char) (c : Char) :
    endsBlank (output ++ [c]) = (decide (c = ' ') || decide (c = '.')) := by
  rw [endsBlank, List.getLast?_concat]
  simp

theorem replaceTrailing_concat (output : List Char) (hc : c = ' ' ∨ c = '.') :
    replaceTrailing (output ++ [c]) = output ++ ['_'] := by
  have hends : endsBlank (output ++ [c]) = true := by
    rw [endsBlank_concat]
    rcases hc with rfl | rfl
    · rfl
    · rfl
  rw [replaceTrailing, if_pos hends, List.dropLast_concat]

/-- The end of what stands behind the last marker is the end of all. -/
theorem endsBlank_of_splitAtLast {split : List Char × List Char}
    (hsplit : splitAtLast marker output = some split) (h : endsBlank output = false) :
    endsBlank split.2 = false := by
  obtain ⟨before, after⟩ := split
  have houtput := splitAtLast_eq_some hsplit
  rcases after.eq_nil_or_concat' with rfl | ⟨init, last, rfl⟩
  · rfl
  · rw [houtput, ← List.append_assoc, endsBlank_concat] at h
    rw [endsBlank_concat]
    exact h

/-- The markers stay where they are when the end of a name is replaced. -/
theorem splitAtLast_replaceTrailing (output : List Char) :
    (splitAtLast marker (replaceTrailing output)).map Prod.snd =
      (splitAtLast marker output).map fun split ↦ replaceTrailing split.2 := by
  cases hends : endsBlank output with
  | false =>
      rw [replaceTrailing_of_not hends]
      cases hsplit : splitAtLast marker output with
      | none => rfl
      | some split =>
          rw [Option.map_some, Option.map_some,
            replaceTrailing_of_not (endsBlank_of_splitAtLast hsplit hends)]
  | true =>
      rcases output.eq_nil_or_concat' with rfl | ⟨init, last, rfl⟩
      · cases hends
      have hlast : last = ' ' ∨ last = '.' := by
        rw [endsBlank_concat] at hends
        simpa using hends
      have hbracket : last ≠ '[' := by
        rcases hlast with rfl | rfl
        · decide
        · decide
      rw [replaceTrailing_concat init hlast,
        splitAtLast_concat marker_ne_nil (getLast?_marker_ne (by decide)),
        splitAtLast_concat marker_ne_nil (getLast?_marker_ne hbracket)]
      cases splitAtLast marker init with
      | none => rfl
      | some split =>
          rw [Option.map_some, Option.map_some, Option.map_some, Option.map_some,
            replaceTrailing_concat _ hlast]

theorem replaceReserved_of_mem_marker : ∀ c ∈ marker, replaceReserved c = c := by decide

theorem replaceReserved_mem_marker (h : replaceReserved c ∈ marker) : replaceReserved c = c := by
  rw [replaceReserved] at h ⊢
  split at h
  · exact absurd h (by decide)
  · next hreserved => exact if_neg hreserved

/-- What `safe_local_filename` starts from, unless it is empty, with a letter in front that it may
add. -/
theorem safeLocalFilename_cases (name : String) :
    name = "" ∧ safeLocalFilename name = "download.bin" ∨
      (safeLocalFilename name).toList = replaceTrailing (name.toList.map replaceReserved) ∨
      (safeLocalFilename name).toList =
        '_' :: replaceTrailing (name.toList.map replaceReserved) := by
  have hlast := (clean_body name).last
  rw [safeLocalFilename]
  generalize hbody : replaceTrailing (name.toList.map replaceReserved) = output at hlast
  by_cases hempty : output = []
  · left
    subst hempty
    refine ⟨?_, by decide⟩
    cases hlist : name.toList with
    | nil => exact String.toList_eq_nil_iff.mp hlist
    | cons c rest =>
        rw [hlist] at hbody
        exact absurd hbody (replaceTrailing_ne_nil (List.cons_ne_nil _ _))
  · right
    have hne : ¬(output = [] ∨ output = ['.'] ∨ output = ['.', '.']) := by
      rintro (h | rfl | rfl)
      · exact hempty h
      · cases hlast
      · cases hlast
    simp only [if_neg hne, String.toList_ofList]
    split_ifs
    · exact .inr rfl
    · exact .inl rfl

/-- The markers stay where they are when a name is made a local one. -/
theorem splitAtLast_safeLocalFilename (name : String) :
    (splitAtLast marker (safeLocalFilename name).toList).map Prod.snd =
      (splitAtLast marker name.toList).map fun split ↦
        replaceTrailing (split.2.map replaceReserved) := by
  have hbody :
      (splitAtLast marker (replaceTrailing (name.toList.map replaceReserved))).map Prod.snd =
        (splitAtLast marker name.toList).map fun split ↦
          replaceTrailing (split.2.map replaceReserved) := by
    rw [splitAtLast_replaceTrailing,
      splitAtLast_map replaceReserved_of_mem_marker fun c hc ↦ replaceReserved_mem_marker hc,
      Option.map_map]
    rfl
  rcases safeLocalFilename_cases name with ⟨rfl, hname⟩ | hname | hname
  · rw [hname]
    decide
  · rw [hname, hbody]
  · rw [hname, splitAtLast_cons marker_ne_nil (by decide), Option.map_map, ← hbody]
    rfl

theorem terminalSafe_of_clean (h : Clean name.toList) : terminalSafe name = name := by
  have hchar (c : Char) (hc : c ∈ name.toList) : terminalSafeChar c = [c] := by
    have hcontrol : isControl c = false := by
      have hreserved := h.chars c hc
      rw [isReserved, Bool.or_eq_false_iff] at hreserved
      exact hreserved.1
    have hne (d : Char) (hd : isControl d = true) : c ≠ d := by
      rintro rfl
      rw [hcontrol] at hd
      cases hd
    rw [terminalSafeChar, if_neg (hne '\n' rfl), if_neg (hne '\r' rfl), if_neg (hne '\t' rfl),
      if_neg (hne '\x1b' rfl), hcontrol]
    rfl
  rw [terminalSafe, List.flatMap_congr hchar, List.flatMap_singleton', String.ofList_toList]

/-- The prompt for a directory is what it is taken for, with the marker in front of the name. -/
theorem recursiveDownloadPrompt_eq (path name : String) :
    recursiveDownloadPrompt path name = RECURSIVE_DOWNLOAD_PREFIX ++
      (terminalSafe path ++ (RECURSIVE_DOWNLOAD_DESTINATION_MARKER ++
        (safeLocalFilename name ++ RECURSIVE_DOWNLOAD_DESTINATION_SUFFIX))) := by
  have hassoc (a p b d c : String) : a ++ p ++ b ++ d ++ c = a ++ (p ++ (b ++ (d ++ c))) := by
    simp only [String.append_assoc]
  have hname := terminalSafe_of_clean (safeLocalFilename_spec name).1
  unfold recursiveDownloadPrompt
  rw [hname]
  exact hassoc _ _ _ _ _

/-- What the prompt for a directory offers: the name, or what stands behind the last marker in
it. -/
theorem recursiveDownloadDefaultName_prompt (path name : String) :
    recursiveDownloadDefaultName (recursiveDownloadPrompt path name) =
      some (match splitAtLast marker (safeLocalFilename name).toList with
        | some split => String.ofList split.2
        | none => safeLocalFilename name) := by
  have hprefix := stripPrefix_eq_some.mpr
    ((congrArg String.toList (recursiveDownloadPrompt_eq path name)).trans String.toList_append)
  -- The suffix has no letter that ends a marker.
  have hsuffix : splitAtLast marker ((safeLocalFilename name).toList ++ suffix) =
      (splitAtLast marker (safeLocalFilename name).toList).map fun split ↦
        (split.1, split.2 ++ suffix) :=
    splitAtLast_append_right marker_ne_nil (by decide)
  rw [recursiveDownloadDefaultName, hprefix]
  simp only [Option.bind_eq_bind, Option.bind_some, String.toList_append]
  cases hsplit : splitAtLast marker (safeLocalFilename name).toList with
  | none =>
      rw [hsplit] at hsuffix
      have hlast := splitAtLast_append_left (terminalSafe path).toList
        (splitAtLast_pattern_append marker_ne_nil (by decide) hsuffix)
      rw [marker, suffix] at hlast
      rw [hlast, Option.bind_some, stripSuffix_append, Option.bind_some, String.ofList_toList]
  | some split =>
      rw [hsplit] at hsuffix
      have hlast := splitAtLast_append_left (terminalSafe path).toList
        (splitAtLast_append_left marker hsuffix)
      rw [marker, suffix] at hlast
      rw [hlast, Option.bind_some, stripSuffix_append, Option.bind_some]

/-! ## What the user can confirm -/

/-- For an empty line the prompts take the default that they offer. -/
structure CanConfirm (pickerCancelled : Bool) (path name : String) : Prop where
  file : promptLine pickerCancelled (downloadPrompt path name) = .plain ∧
    downloadDestination name "" = safeLocalFilename name
  directory : ∃ defaultName,
    promptLine pickerCancelled (recursiveDownloadPrompt path name) = .destination defaultName ∧
      promptLocalDownloadLeaf defaultName [""] = some (some defaultName)

/-- What stands behind the last marker in a name, if there is one, is something, and no device. -/
def Confirmable (name : String) : Prop :=
  ∀ split, splitAtLast marker name.toList = some split →
    split.2 ≠ [] ∧ stem (replaceTrailing (split.2.map replaceReserved)) ∉ deviceNames

theorem not_prefix_append {pattern front back : List Char} (h : ¬pattern <+: front)
    (h' : ¬front <+: pattern) : ¬pattern <+: front ++ back := by
  intro hprefix
  rcases List.prefix_or_prefix_of_prefix hprefix (List.prefix_append front back) with hp | hp
  · exact h hp
  · exact h' hp

/-- The prompt for a file is shown as it is. -/
theorem promptLine_downloadPrompt (pickerCancelled : Bool) (path name : String) :
    promptLine pickerCancelled (downloadPrompt path name) = .plain := by
  obtain ⟨back, hback⟩ :
      ∃ back, (downloadPrompt path name).toList = "download ".toList ++ back := by
    unfold downloadPrompt
    simp only [String.toList_append, List.append_assoc]
    exact ⟨_, rfl⟩
  generalize downloadPrompt path name = prompt at hback
  have hconfirmation : isRecursiveDownloadConfirmationPrompt prompt = false := by
    rw [isRecursiveDownloadConfirmationPrompt, startsWith, hback,
      decide_eq_false (not_prefix_append (by decide) (by decide)), Bool.false_and]
  have hdefault : recursiveDownloadDefaultName prompt = none := by
    have hprefix : stripPrefix prompt RECURSIVE_DOWNLOAD_PREFIX = none := by
      rw [stripPrefix_eq_none, hback]
      exact not_prefix_append (by decide) (by decide)
    rw [recursiveDownloadDefaultName, hprefix]
    rfl
  have hpicker : localPickerKind prompt = none := by
    have hother (upload : String) (h : ¬"download ".toList <+: upload.toList) :
        prompt ≠ upload := by
      rintro rfl
      exact h (hback ▸ List.prefix_append _ back)
    rw [localPickerKind, if_neg (hother _ (by decide)), if_neg (hother _ (by decide))]
  rw [promptLine, hconfirmation, hdefault, hpicker]
  rfl

theorem promptLine_recursiveDownloadPrompt (pickerCancelled : Bool) (path name : String) :
    promptLine pickerCancelled (recursiveDownloadPrompt path name) =
      .destination (match splitAtLast marker (safeLocalFilename name).toList with
        | some split => String.ofList split.2
        | none => safeLocalFilename name) := by
  have hconfirmation :
      isRecursiveDownloadConfirmationPrompt (recursiveDownloadPrompt path name) = false := by
    rw [recursiveDownloadPrompt_eq, isRecursiveDownloadConfirmationPrompt, startsWith,
      String.toList_append, decide_eq_false (not_prefix_append (by decide) (by decide)),
      Bool.false_and]
  rw [promptLine, hconfirmation, recursiveDownloadDefaultName_prompt]
  rfl

/-- An empty line confirms a default exactly when it is a name that is accepted. -/
theorem promptLocalDownloadLeaf_empty_iff {defaultName : String} :
    promptLocalDownloadLeaf defaultName [""] = some (some defaultName) ↔
      validateLocalLeaf defaultName = .ok () := by
  have hempty : String.ofList (trim "".toList) = "" := rfl
  rw [promptLocalDownloadLeaf]
  dsimp only
  rw [if_neg (by decide), if_pos hempty]
  cases validateLocalLeaf defaultName with
  | ok => exact iff_of_true rfl rfl
  | error =>
      rw [promptLocalDownloadLeaf]
      exact iff_of_false (fun h ↦ by cases h) fun h ↦ by cases h

/-- What stands behind the last marker in the local name is accepted when it is something and no
device. -/
theorem validateLocalLeaf_split {split : List Char × List Char}
    (hsplit : splitAtLast marker (safeLocalFilename name).toList = some split) :
    validateLocalLeaf (String.ofList split.2) = .ok () ↔
      split.2 ≠ [] ∧ stem split.2 ∉ deviceNames := by
  obtain ⟨hclean, -, -⟩ := safeLocalFilename_spec name
  have hafter : Clean split.2 := by
    refine ⟨fun c hc ↦ hclean.chars c ?_, endsBlank_of_splitAtLast hsplit hclean.last⟩
    rw [splitAtLast_eq_some hsplit]
    exact List.mem_append_right _ hc
  rw [validateLocalLeaf_eq_ok_iff, String.toList_ofList, ne_eq, String.ofList_eq_empty_iff]
  exact and_iff_right hafter

/-- The local name is portable, a fixed point, and accepted. The default in the prompt for a
directory can be confirmed exactly when no marker stands in the name or behind the last one
stands a name that is accepted. -/
theorem default_confirmed_iff (pickerCancelled : Bool) (path name : String) :
    (PortableLeaf (safeLocalFilename name) ∧
      safeLocalFilename (safeLocalFilename name) = safeLocalFilename name ∧
      validateLocalLeaf (safeLocalFilename name) = .ok () ∧
      CanConfirm pickerCancelled path name) ↔ Confirmable name := by
  have hmarkers := splitAtLast_safeLocalFilename name
  have hdirectory := promptLine_recursiveDownloadPrompt pickerCancelled path name
  constructor
  · rintro ⟨-, -, -, hconfirm⟩ split hsplit
    obtain ⟨defaultName, hprompt, hanswer⟩ := hconfirm.directory
    rw [hsplit, Option.map_some] at hmarkers
    obtain ⟨offered, hoffered, hafter⟩ := Option.map_eq_some_iff.mp hmarkers
    rw [hdirectory, hoffered] at hprompt
    cases hprompt
    obtain ⟨hne, hstem⟩ :=
      (validateLocalLeaf_split hoffered).mp (promptLocalDownloadLeaf_empty_iff.mp hanswer)
    rw [hafter] at hne hstem
    refine ⟨?_, hstem⟩
    intro hnil
    rw [hnil] at hne
    exact hne rfl
  · intro hconfirmable
    refine ⟨portableLeaf_safeLocalFilename name, safeLocalFilename_idem name,
      validateLocalLeaf_safeLocalFilename name,
      ⟨promptLine_downloadPrompt pickerCancelled path name, rfl⟩, ⟨_, hdirectory, ?_⟩⟩
    rw [promptLocalDownloadLeaf_empty_iff]
    cases hoffered : splitAtLast marker (safeLocalFilename name).toList with
    | none => exact validateLocalLeaf_safeLocalFilename name
    | some offered =>
        rw [hoffered, Option.map_some] at hmarkers
        obtain ⟨split, hsplit, hafter⟩ := Option.map_eq_some_iff.mp hmarkers.symm
        obtain ⟨hne, hstem⟩ := hconfirmable split hsplit
        rw [hafter] at hstem
        refine (validateLocalLeaf_split hoffered).mpr ⟨?_, hstem⟩
        rw [← hafter]
        exact replaceTrailing_ne_nil (mt List.map_eq_nil_iff.mp hne)

/-- The default for a directory whose name ends in the marker is empty, which is no name. -/
theorem default_not_confirmed :
    ¬∀ (pickerCancelled : Bool) (path name : String),
      PortableLeaf (safeLocalFilename name) ∧
        safeLocalFilename (safeLocalFilename name) = safeLocalFilename name ∧
        validateLocalLeaf (safeLocalFilename name) = .ok () ∧
        CanConfirm pickerCancelled path name := by
  intro h
  obtain ⟨-, -, -, -, defaultName, hprompt, hanswer⟩ :=
    h false "/srv/x to local directory [" "x to local directory ["
  have hoffered : promptLine false (recursiveDownloadPrompt "/srv/x to local directory ["
      "x to local directory [") = .destination "" := by decide +kernel
  rw [hoffered] at hprompt
  cases hprompt
  exact absurd hanswer (by decide)

end KaduoxSsh.Cli
